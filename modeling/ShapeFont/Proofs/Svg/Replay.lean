import Mathlib.Data.List.Forall2
import ShapeFont.Svg.Command
import ShapeFont.Proofs.Number.Sign
import ShapeFont.Proofs.Stroke.Chains

/-!
# Replaying a path

Whoever draws a path keeps a current point, which is where the command before ended. Replaying the
commands of some strokes shows these strokes again, each from its own start. The invariant of a run
is that the pen the commands were chosen with is the current point of whoever replays them, or that
it is unknown.
-/

namespace ShapeFont

universe u

variable {α : Type u}

theorem Stroke.start_mem_end_points {stroke : Stroke α} {start : Point α}
    (starts : stroke.start? = some start) : start ∈ stroke.endPoints := by
  cases stroke with
  | newPath => cases starts
  | move target => cases starts
  | line first target =>
      cases starts
      exact List.mem_cons_self
  | arc first control target =>
      cases starts
      exact List.mem_cons_self

namespace Svg

def Command.target : Command α → Point α
  | moveTo target => target
  | lineTo target => target
  | arcTo _ _ _ target => target

def Command.isMove : Command α → Bool
  | moveTo _ => true
  | _ => false

/-- A line or an arc that is drawn, with the point it is drawn from. -/
structure Mark (α : Type u) where
  source : Point α
  command : Command α

/-- Draws commands one after the other. Moves only set the current point. Lines and arcs start there
and cannot be drawn without one. -/
def replay : Option (Point α) → List (Command α) → Option (List (Mark α))
  | _, [] => some []
  | _, .moveTo target :: commands => replay (some target) commands
  | none, _ :: _ => none
  | some source, command :: commands =>
      (replay (some command.target) commands).map (⟨source, command⟩ :: ·)

def currentPoint (written : List (Command α)) : Option (Point α) :=
  written.getLast?.map Command.target

def Fresh (before : List (Stroke α)) : Prop := before = [] ∨ before.getLast? = some .newPath

def penBehind (strokes : List (Stroke α)) : Option (Point α) :=
  strokes.foldl (fun _ stroke => stroke.target?) none

theorem pen_behind_append (before : List (Stroke α)) (stroke : Stroke α) :
    penBehind (before ++ [stroke]) = stroke.target? := by
  rw [penBehind, List.foldl_append]
  rfl

theorem target_of_move {command : Command α} (moves : command.isMove = true) :
    ∃ target, command = .moveTo target := by
  cases command with
  | moveTo target => exact ⟨target, rfl⟩
  | lineTo target => cases moves
  | arcTo radius large sweep target => cases moves

theorem fresh_iff (before : List (Stroke α)) : Fresh before ↔ penBehind before = none := by
  rcases List.eq_nil_or_concat before with empty | ⟨front, last, split⟩
  · rw [empty]
    exact iff_of_true (.inl rfl) rfl
  · rw [split, List.concat_eq_append, pen_behind_append, Fresh, List.getLast?_concat]
    cases last <;> simp [Stroke.target?]

@[simp] theorem current_point_append (earlier : List (Command α)) (last : Command α) :
    currentPoint (earlier ++ [last]) = some last.target := by
  rw [currentPoint, List.getLast?_concat]
  rfl

variable [Scalar α]

/-- What a stroke is when it is replayed. Breaks and moves draw nothing, and a line is one line. An
arc is a line if it is flat, two half circles if it closes, and one arc otherwise. -/
inductive Shows : Stroke α → List (Mark α) → Prop
  | newPath : Shows .newPath []
  | move (target : Point α) : Shows (.move target) []
  | line (source start target : Point α) (entered : source.agrees start.flip = true) :
      Shows (.line start target) [⟨source, .lineTo target.flip⟩]
  | flat (source start control target : Point α) (entered : source.agrees start.flip = true)
      (opened : closes start control target = false)
      (straight : Circle.through? start control target = none) :
      Shows (.arc start control target) [⟨source, .lineTo target.flip⟩]
  | round (source start control target : Point α) (entered : source.agrees start.flip = true)
      (opened : closes start control target = false) (circle : Circle α)
      (through : Circle.through? start control target = some circle) (large sweep : Bool) :
      Shows (.arc start control target) [⟨source, .arcTo circle.radius large sweep target.flip⟩]
  | full (source start control target : Point α) (entered : source.agrees start.flip = true)
      (closed : closes start control target = true) :
      Shows (.arc start control target)
        [⟨source, .arcTo (half (start.distance control)) false false control.flip⟩,
          ⟨control.flip, .arcTo (half (start.distance control)) false false target.flip⟩]

/-- What stands in front of a drawn stroke so that it is drawn from its start: nothing if the current
point is there, and otherwise a move. -/
structure Entered (before : List (Stroke α)) (start : Point α) (opening : List (Command α))
    (source : Point α) : Prop where
  current : currentPoint (commands before ++ opening) = some source
  there : source.agrees start.flip = true
  cause : opening = [] ∧ ¬ Fresh before ∨
    opening = [.moveTo start.flip] ∧ (Fresh before ∨
      ∃ point, currentPoint (commands before) = some point ∧ point.agrees start.flip = false)

theorem Entered.moves {before : List (Stroke α)} {start source : Point α}
    {opening : List (Command α)} (entered : Entered before start opening source) :
    ∀ command ∈ opening, command.isMove = true := by
  rcases entered.cause with ⟨none, _⟩ | ⟨put, _⟩
  · rw [none]
    exact List.forall_mem_nil _
  · rw [put]
    exact List.forall_mem_singleton.mpr rfl

/-- What a stroke adds to the commands of those before it: a way to its start, and its own commands,
which draw it from where that way led. -/
inductive Adds (before : List (Stroke α)) :
    Stroke α → List (Command α) → List (Command α) → Prop
  | newPath : Adds before .newPath [] []
  | move (target : Point α) : Adds before (.move target) [] [.moveTo target.flip]
  | drawn {stroke : Stroke α} {start source : Point α} {opening : List (Command α)}
      {marks : List (Mark α)} (starts : stroke.start? = some start)
      (entered : Entered before start opening source) (shown : Shows stroke marks)
      (replayed : replay (some source) (marks.map Mark.command) = some marks) :
      Adds before stroke opening (marks.map Mark.command)

/-- A stroke is drawn directly behind a move to its start, and only moves stand between `earlier` and
that move. -/
def BeginsSubpath (earlier written : List (Command α)) (stroke : Stroke α) (start : Point α) : Prop :=
  ∃ moves source marks, written = earlier ++ moves ++ .moveTo source :: marks.map Mark.command ∧
    (∀ command ∈ moves, command.isMove = true) ∧ source.agrees start.flip = true ∧
    Shows stroke marks

theorem path_commands_eq (done : Array (Command α)) (pen : Option (Point α))
    (strokes : List (Stroke α)) :
    pathCommands done pen strokes = done.toList ++ pathCommands #[] pen strokes := by
  induction strokes generalizing done pen with
  | nil => simp [pathCommands]
  | cons stroke strokes ih =>
      rw [pathCommands, pathCommands, ih, ih (#[] ++ strokeCommands pen stroke)]
      simp

theorem path_commands_cons (pen : Option (Point α)) (stroke : Stroke α)
    (strokes : List (Stroke α)) :
    pathCommands #[] pen (stroke :: strokes) =
      strokeCommands pen stroke ++ pathCommands #[] stroke.target? strokes := by
  rw [pathCommands, path_commands_eq]
  simp

theorem path_commands_append (pen : Option (Point α)) (before behind : List (Stroke α)) :
    pathCommands #[] pen (before ++ behind) =
      pathCommands #[] pen before ++
        pathCommands #[] (before.foldl (fun _ stroke => stroke.target?) pen) behind := by
  induction before generalizing pen with
  | nil => rfl
  | cons stroke before ih =>
      rw [List.cons_append, path_commands_cons, path_commands_cons, ih, List.append_assoc]
      rfl

theorem commands_append (before behind : List (Stroke α)) :
    commands (before ++ behind) = commands before ++ pathCommands #[] (penBehind before) behind :=
  path_commands_append none before behind

theorem commands_behind (before : List (Stroke α)) (stroke : Stroke α) :
    commands (before ++ [stroke]) = commands before ++ strokeCommands (penBehind before) stroke := by
  rw [commands_append, path_commands_cons]
  exact congrArg (commands before ++ ·) (List.append_nil _)

/-- A break forgets the pen, so that what comes behind it is written as if nothing had come before. -/
theorem commands_of_break (before after : List (Stroke α)) :
    commands (before ++ .newPath :: after) = commands before ++ commands after := by
  rw [commands_append, path_commands_cons]
  rfl

theorem moves_of_quiet (pen : Option (Point α)) {strokes : List (Stroke α)}
    (quiet : ∀ stroke ∈ strokes, stroke.start? = none) :
    ∀ command ∈ pathCommands #[] pen strokes, command.isMove = true := by
  induction strokes generalizing pen with
  | nil => exact List.forall_mem_nil _
  | cons stroke strokes ih =>
      have ⟨first, others⟩ := List.forall_mem_cons.mp quiet
      rw [path_commands_cons]
      intro command member
      rcases List.mem_append.mp member with own | behind
      · cases stroke with
        | newPath => cases own
        | move target =>
            rw [List.mem_singleton.mp own]
            rfl
        | line start target => cases first
        | arc start control target => cases first
      · exact ih _ others command behind

theorem arc_commands_ne_nil (start control target : Point α) :
    ∃ earlier last, arcCommands start control target = earlier ++ [last] ∧
      last.target = target.flip := by
  unfold arcCommands
  split
  · exact ⟨[_], _, rfl, rfl⟩
  · split
    · exact ⟨[], _, rfl, rfl⟩
    · exact ⟨[], _, rfl, rfl⟩

theorem current_point_of_stroke (earlier : List (Command α)) (pen : Option (Point α))
    {stroke : Stroke α} {target : Point α} (ends : stroke.target? = some target) :
    currentPoint (earlier ++ strokeCommands pen stroke) = some target.flip := by
  cases stroke with
  | newPath => cases ends
  | move other =>
      cases ends
      exact current_point_append earlier _
  | line start other =>
      cases ends
      rw [strokeCommands, ← List.append_assoc]
      exact current_point_append _ _
  | arc start control other =>
      cases ends
      have ⟨front, last, split, reached⟩ := arc_commands_ne_nil start control target
      rw [strokeCommands, split, ← List.append_assoc, ← List.append_assoc, current_point_append,
        reached]

theorem current_point_of_pen {before : List (Stroke α)} {point : Point α}
    (known : penBehind before = some point) :
    currentPoint (commands before) = some point.flip := by
  rcases List.eq_nil_or_concat before with empty | ⟨front, last, split⟩
  · rw [empty] at known
    cases known
  · rw [split, List.concat_eq_append] at known ⊢
    rw [pen_behind_append] at known
    rw [commands_behind]
    exact current_point_of_stroke _ _ known

theorem shows_arc {source start : Point α} (control target : Point α)
    (entered : source.agrees start.flip = true) :
    ∃ marks, Shows (.arc start control target) marks ∧
      arcCommands start control target = marks.map Mark.command ∧
      ∀ rest, replay (some source) (arcCommands start control target ++ rest) =
        (replay (some target.flip) rest).map (marks ++ ·) := by
  unfold arcCommands
  cases closed : closes start control target with
  | true =>
      refine ⟨_, .full source start control target entered closed, rfl, fun rest => ?_⟩
      rw [if_pos rfl]
      exact Option.map_map _ _ _
  | false =>
      rw [if_neg Bool.false_ne_true]
      cases through : Circle.through? start control target with
      | none => exact ⟨_, .flat source start control target entered closed through, rfl, fun _ => rfl⟩
      | some circle =>
          exact ⟨_, .round source start control target entered closed circle through _ _, rfl,
            fun _ => rfl⟩

/-- The pen is unknown, or it is the current point of the replay. -/
def Tracks (pen current : Option (Point α)) : Prop :=
  ∀ point, pen = some point → current = some point.flip

section

variable (signs : ∀ first second : α, (-first == -second) = (first == second))

include signs

theorem agrees_flip (first second : Point α) :
    first.flip.agrees second.flip = first.agrees second := by
  rw [Point.agrees, Point.agrees, Point.flip, Point.flip, signs]

theorem approach_cases (pen : Option (Point α)) (start : Point α) :
    (approach pen start = [] ∧
        ∃ point, pen = some point ∧ point.flip.agrees start.flip = true) ∨
      (approach pen start = [.moveTo start.flip] ∧
        ∀ point, pen = some point → point.flip.agrees start.flip = false) := by
  cases pen with
  | none =>
      refine .inr ⟨rfl, ?_⟩
      intro point known
      cases known
  | some point =>
      cases near : point.agrees start with
      | true =>
          refine .inl ⟨?_, point, rfl, ?_⟩
          · rw [approach, near, if_pos rfl]
          · rw [agrees_flip signs, near]
      | false =>
          refine .inr ⟨?_, ?_⟩
          · rw [approach, near, if_neg Bool.false_ne_true]
          · intro other known
            rw [← Option.some.inj known, agrees_flip signs, near]

theorem entered_of_approach (before : List (Stroke α)) {start : Point α}
    (number : start.agrees start = true) :
    ∃ source, Entered before start (approach (penBehind before) start) source := by
  rcases approach_cases signs (penBehind before) start with ⟨nothing, point, known, near⟩ | ⟨put, far⟩
  · have old : ¬ Fresh before := by
      rw [fresh_iff, known]
      exact Option.some_ne_none point
    rw [nothing]
    refine ⟨point.flip, ?_, near, .inl ⟨rfl, old⟩⟩
    rw [List.append_nil, current_point_of_pen known]
  · rw [put]
    refine ⟨start.flip, current_point_append _ _, ?_, .inr ⟨rfl, ?_⟩⟩
    · rw [agrees_flip signs, number]
    · cases known : penBehind before with
      | none => exact .inl ((fresh_iff before).mpr known)
      | some point => exact .inr ⟨_, current_point_of_pen known, far point known⟩

theorem replay_approach {pen current : Option (Point α)} (tracks : Tracks pen current)
    {start : Point α} (number : start.agrees start = true) :
    ∃ source, source.agrees start.flip = true ∧
      ∀ rest, replay current (approach pen start ++ rest) = replay (some source) rest := by
  rcases approach_cases signs pen start with ⟨nothing, point, known, near⟩ | ⟨put, _⟩
  · rw [nothing, tracks point known]
    exact ⟨point.flip, near, fun _ => rfl⟩
  · rw [put]
    refine ⟨start.flip, ?_, fun _ => rfl⟩
    rw [agrees_flip signs, number]

theorem replay_stroke {pen current : Option (Point α)} (tracks : Tracks pen current)
    (stroke : Stroke α) (numbers : ∀ start, stroke.start? = some start → start.agrees start = true) :
    ∃ marks after, Shows stroke marks ∧ Tracks stroke.target? after ∧
      ∀ rest, replay current (strokeCommands pen stroke ++ rest) =
        (replay after rest).map (marks ++ ·) := by
  have same (result : Option (List (Mark α))) : result = result.map ([] ++ ·) := Option.map_id'.symm
  have here (target : Point α) : Tracks (some target) (some target.flip) := by
    intro point known
    rw [Option.some.inj known]
  cases stroke with
  | newPath =>
      refine ⟨[], current, .newPath, ?_, fun rest => same _⟩
      intro point known
      cases known
  | move target => exact ⟨[], some target.flip, .move target, here target, fun rest => same _⟩
  | line start target =>
      have ⟨source, entered, onward⟩ := replay_approach signs tracks (numbers start rfl)
      refine ⟨_, some target.flip, .line source start target entered, here target, fun rest => ?_⟩
      rw [strokeCommands, List.append_assoc, onward]
      rfl
  | arc start control target =>
      have ⟨source, entered, onward⟩ := replay_approach signs tracks (numbers start rfl)
      have ⟨marks, shown, _, drawn⟩ := shows_arc control target entered
      refine ⟨marks, some target.flip, shown, here target, fun rest => ?_⟩
      rw [strokeCommands, List.append_assoc, onward, drawn]

theorem replay_path_commands {pen current : Option (Point α)} (tracks : Tracks pen current)
    (strokes : List (Stroke α))
    (numbers : ∀ stroke ∈ strokes, ∀ start, stroke.start? = some start →
      start.agrees start = true) :
    ∃ groups, replay current (pathCommands #[] pen strokes) = some groups.flatten ∧
      List.Forall₂ Shows strokes groups := by
  induction strokes generalizing pen current with
  | nil => exact ⟨[], by simp [pathCommands, replay], .nil⟩
  | cons stroke strokes ih =>
      have ⟨first, others⟩ := List.forall_mem_cons.mp numbers
      have ⟨marks, after, shown, tracked, drawn⟩ := replay_stroke signs tracks stroke first
      have ⟨groups, replayed, shows⟩ := ih tracked others
      refine ⟨marks :: groups, ?_, .cons shown shows⟩
      rw [path_commands_cons, drawn, replayed]
      rfl

theorem adds_of_stroke (before : List (Stroke α)) (stroke : Stroke α)
    (numbers : ∀ start, stroke.start? = some start → start.agrees start = true) :
    ∃ opening drawing, Adds before stroke opening drawing ∧
      commands (before ++ [stroke]) = commands before ++ opening ++ drawing := by
  rw [commands_behind]
  cases stroke with
  | newPath => exact ⟨[], [], .newPath, by simp [strokeCommands]⟩
  | move target => exact ⟨[], _, .move target, by simp [strokeCommands]⟩
  | line start target =>
      have ⟨source, entered⟩ := entered_of_approach signs before (numbers start rfl)
      have shown := Shows.line source start target entered.there
      exact ⟨_, _, .drawn rfl entered shown rfl, (List.append_assoc _ _ _).symm⟩
  | arc start control target =>
      have ⟨source, entered⟩ := entered_of_approach signs before (numbers start rfl)
      have ⟨marks, shown, own, drawn⟩ := shows_arc control target entered.there
      have replayed : replay (some source) (marks.map Mark.command) = some marks := by
        have alone := drawn []
        rw [List.append_nil, own] at alone
        rw [alone]
        simp [replay]
      refine ⟨_, _, .drawn rfl entered shown replayed, ?_⟩
      rw [strokeCommands, own, List.append_assoc]

theorem begins_subpath_of_break (before still : List (Stroke α)) {stroke : Stroke α}
    {start : Point α} (quiet : ∀ other ∈ still, other.start? = none)
    (starts : stroke.start? = some start) (number : start.agrees start = true) :
    BeginsSubpath (commands before) (commands (before ++ .newPath :: (still ++ [stroke]))) stroke
      start := by
  have numbers (other : Point α) (found : stroke.start? = some other) :
      other.agrees other = true := by
    rw [Option.some.inj (found.symm.trans starts)]
    exact number
  have ⟨opening, drawing, adds, written⟩ := adds_of_stroke signs still stroke numbers
  rw [commands_of_break, written]
  cases adds with
  | newPath => cases starts
  | move target => cases starts
  | drawn found entered shown replayed =>
      have same := Option.some.inj (found.symm.trans starts)
      rw [same] at entered
      have moves : ∀ command ∈ commands still ++ opening, command.isMove = true := by
        intro command member
        rcases List.mem_append.mp member with earlier | put
        · exact moves_of_quiet none quiet command earlier
        · exact entered.moves command put
      rcases List.eq_nil_or_concat (commands still ++ opening) with none | ⟨front, last, split⟩
      · have current := entered.current
        rw [none] at current
        cases current
      · rw [List.concat_eq_append] at split
        have current := entered.current
        rw [split] at moves current ⊢
        rw [current_point_append] at current
        have ⟨point, move⟩ := target_of_move (moves last (by simp))
        rw [move] at current
        have place : point = _ := Option.some.inj current
        refine ⟨front, point, _, ?_, fun command member => moves command (by simp [member]), ?_, shown⟩
        · rw [move]
          simp
        · rw [place]
          exact entered.there

end

theorem commands_begin_with_move (strokes : List (Stroke α)) :
    commands strokes = [] ∨ ∃ target rest, commands strokes = .moveTo target :: rest := by
  induction strokes with
  | nil => exact .inl rfl
  | cons stroke strokes ih =>
      have first : commands (stroke :: strokes) =
          strokeCommands none stroke ++ pathCommands #[] stroke.target? strokes :=
        path_commands_cons none stroke strokes
      rw [first]
      cases stroke with
      | newPath => exact ih
      | move target => exact .inr ⟨_, _, rfl⟩
      | line start target => exact .inr ⟨_, _, rfl⟩
      | arc start control target => exact .inr ⟨_, _, rfl⟩

theorem commands_prefix (before : List (Stroke α)) (stroke : Stroke α) (behind : List (Stroke α)) :
    commands (before ++ [stroke]) <+: commands (before ++ stroke :: behind) := by
  rw [List.append_cons before stroke behind, commands_append (before ++ [stroke])]
  exact List.prefix_append _ _

/-- Two floats are the same point for themselves unless a coordinate is not a number. -/
theorem agrees_self {point : Point Float}
    (number : point.x.isNaN = false ∧ point.y.isNaN = false) : point.agrees point = true := by
  rw [Point.agrees, Binary64.beq_self number.1, Binary64.beq_self number.2]
  rfl

/-- The commands of strokes whose coordinates are numbers, drawn one after the other, are these strokes
and nothing else. Each is drawn from its own start, which a move is put in for only where the current
point is elsewhere or the path was broken, and ends where it ends. What is written begins with a move,
and so does what is drawn first behind a break. -/
theorem replay_shows_the_strokes (strokes : List (Stroke Float))
    (numbers : ∀ stroke ∈ strokes, ∀ point ∈ stroke.endPoints,
      point.x.isNaN = false ∧ point.y.isNaN = false) :
    (∃ groups, replay none (commands strokes) = some groups.flatten ∧
      List.Forall₂ Shows strokes groups) ∧
    (∀ before stroke behind, strokes = before ++ stroke :: behind →
      (∃ opening drawing, Adds before stroke opening drawing ∧
        commands (before ++ [stroke]) = commands before ++ opening ++ drawing) ∧
      commands (before ++ [stroke]) <+: commands strokes ∧
      ∀ target, stroke.target? = some target →
        currentPoint (commands (before ++ [stroke])) = some target.flip) ∧
    (commands strokes = [] ∨ ∃ target rest, commands strokes = .moveTo target :: rest) ∧
    (∀ before still stroke behind start,
      strokes = before ++ .newPath :: (still ++ stroke :: behind) →
      (∀ other ∈ still, other.start? = none) → stroke.start? = some start →
      BeginsSubpath (commands before) (commands (before ++ .newPath :: (still ++ [stroke]))) stroke
        start) := by
  have sound (stroke : Stroke Float) (member : stroke ∈ strokes) (start : Point Float)
      (starts : stroke.start? = some start) : start.agrees start = true :=
    agrees_self (numbers stroke member start (Stroke.start_mem_end_points starts))
  have signs := Binary64.neg_beq_neg
  constructor
  · apply replay_path_commands signs _ strokes sound
    intro point known
    cases known
  constructor
  · intro before stroke behind split
    have member : stroke ∈ strokes := by rw [split]; simp
    refine ⟨adds_of_stroke signs before stroke (sound stroke member), ?_, ?_⟩
    · rw [split]
      exact commands_prefix before stroke behind
    · intro target ends
      rw [commands_behind]
      exact current_point_of_stroke _ _ ends
  constructor
  · exact commands_begin_with_move strokes
  · intro before still stroke behind start split quiet starts
    have member : stroke ∈ strokes := by rw [split]; simp
    exact begins_subpath_of_break signs before still quiet starts (sound stroke member start starts)

/-- The second line starts where the first one ended, but behind a break. -/
theorem line_taken_up_behind_break :
    let strokes : List (Stroke Float) := [.line ⟨0, 0⟩ ⟨1, 0⟩, .newPath, .line ⟨1, 0⟩ ⟨2, 0⟩]
    (∀ stroke ∈ strokes, ∀ point ∈ stroke.endPoints,
      point.x.isNaN = false ∧ point.y.isNaN = false) ∧
    (∃ groups, replay none (commands strokes) = some groups.flatten ∧
      List.Forall₂ Shows strokes groups) ∧
    BeginsSubpath (commands [.line ⟨0, 0⟩ ⟨1, 0⟩]) (commands strokes) (.line ⟨1, 0⟩ ⟨2, 0⟩)
      ⟨1, 0⟩ := by
  intro strokes
  have numbers : ∀ stroke ∈ strokes, ∀ point ∈ stroke.endPoints,
      point.x.isNaN = false ∧ point.y.isNaN = false := by decide
  have ⟨shown, _, _, taken⟩ := replay_shows_the_strokes strokes numbers
  refine ⟨numbers, shown, ?_⟩
  exact taken [.line ⟨0, 0⟩ ⟨1, 0⟩] [] _ [] ⟨1, 0⟩ rfl (List.forall_mem_nil _) rfl

end Svg

end ShapeFont
