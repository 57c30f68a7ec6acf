import Mathlib.Data.List.Forall2
import ShapeFont.Glyph.Run

/-!
# Runs compared step by step

Two runs are compared by a relation on their states. If corresponding states take corresponding
steps, then the runs draw corresponding strokes, end with corresponding pens and have the same
fault, or both have none. Proofs about two runs establish the step and leave the rest to
`run_corresponds`.
-/

namespace ShapeFont

universe u

variable {α : Type u}

/-- How the outcomes of two runs correspond. -/
structure Outcome.Corresponds (strokes : Stroke α → Stroke α → Prop) (pens : Pen α → Pen α → Prop)
    (first second : Outcome α) : Prop where
  strokes : List.Forall₂ strokes first.strokes second.strokes
  pen : pens first.pen second.pen
  fault : first.fault = second.fault

namespace Outcome

variable {strokes : Stroke α → Stroke α → Prop} {pens : Pen α → Pen α → Prop}
  {first second : Outcome α}

theorem eq_of_corresponds (same : first.Corresponds Eq Eq second) : first = second := by
  obtain ⟨drawn, pen, fault⟩ := same
  rw [List.forall₂_eq_eq_eq] at drawn
  cases first
  cases second
  simp_all

theorem corresponds_after {earlier other : List (Stroke α)}
    (before : List.Forall₂ strokes earlier other) (same : first.Corresponds strokes pens second) :
    (first.after earlier).Corresponds strokes pens (second.after other) where
  strokes := List.rel_append before same.strokes
  pen := same.pen
  fault := same.fault

@[simp] theorem fault_after (earlier : List (Stroke α)) (outcome : Outcome α) :
    (outcome.after earlier).fault = outcome.fault := rfl

@[simp] theorem after_nil (outcome : Outcome α) : outcome.after [] = outcome := rfl

theorem after_after (first second : List (Stroke α)) (outcome : Outcome α) :
    (outcome.after second).after first = outcome.after (first ++ second) := by
  simp [after]

end Outcome

/-- How two steps correspond: they end alike, or go on to states that correspond again. -/
inductive Step.Corresponds (strokes : Stroke α → Stroke α → Prop) (pens : Pen α → Pen α → Prop)
    (states : Pen α → CodeStream → Pen α → CodeStream → Prop) : Step α → Step α → Prop where
  | finished : Corresponds strokes pens states .finished .finished
  | faulty {drawn other : List (Stroke α)} {pen after : Pen α} {fault : GlyphFault}
      (drawings : List.Forall₂ strokes drawn other) (ends : pens pen after) :
      Corresponds strokes pens states (.faulty drawn pen fault) (.faulty other after fault)
  | next {drawn other : List (Stroke α)} {pen after : Pen α} {stream rest : CodeStream}
      (drawings : List.Forall₂ strokes drawn other) (onward : states pen stream after rest) :
      Corresponds strokes pens states (.next drawn pen stream) (.next other after rest)

theorem Step.Corresponds.imp {strokes : Stroke α → Stroke α → Prop} {pens : Pen α → Pen α → Prop}
    {states others : Pen α → CodeStream → Pen α → CodeStream → Prop} {first second : Step α}
    (same : first.Corresponds strokes pens states second)
    (onward : ∀ drawn pen stream after rest, first = .next drawn pen stream →
      states pen stream after rest → others pen stream after rest) :
    first.Corresponds strokes pens others second := by
  cases same with
  | finished => exact .finished
  | faulty drawings ends => exact .faulty drawings ends
  | next drawings reached => exact .next drawings (onward _ _ _ _ _ rfl reached)

namespace Glyph

variable [Scalar α]

/-- Induction along a run: what holds of a state if it holds of the next one holds of every state. -/
@[elab_as_elim]
theorem run_induction {setting : Setting} {motive : Pen α → CodeStream → Prop}
    (state : ∀ pen stream, (∀ drawn after rest,
      step setting pen stream = .next drawn after rest → motive after rest) → motive pen stream)
    (pen : Pen α) (stream : CodeStream) : motive pen stream := by
  fun_induction runFrom setting #[] pen stream with
  | case1 done pen stream taken =>
      apply state
      intro drawn after rest next
      simp [taken] at next
  | case2 done pen stream drawn after fault taken =>
      apply state
      intro drawn after rest next
      simp [taken] at next
  | case3 done pen stream drawn after rest taken ih =>
      apply state
      intro drawn after rest next
      rw [taken] at next
      cases next
      exact ih

theorem run_corresponds {setting : Setting} {strokes : Stroke α → Stroke α → Prop}
    {pens : Pen α → Pen α → Prop} {states : Pen α → CodeStream → Pen α → CodeStream → Prop}
    (ends : ∀ pen stream other rest, states pen stream other rest → pens pen other)
    (steps : ∀ pen stream other rest, states pen stream other rest →
      (step setting pen stream).Corresponds strokes pens states (step setting other rest))
    {pen other : Pen α} {stream rest : CodeStream} (start : states pen stream other rest) :
    (run setting pen stream).Corresponds strokes pens (run setting other rest) := by
  induction pen, stream using run_induction generalizing other rest with
  | state pen stream ih =>
      have alike := steps pen stream other rest start
      generalize taken : step setting pen stream = first at alike
      generalize reached : step setting other rest = second at alike
      cases alike with
      | finished =>
          rw [run_of_finished taken, run_of_finished reached]
          exact ⟨.nil, ends pen stream other rest start, rfl⟩
      | faulty drawings stop =>
          rw [run_of_faulty taken, run_of_faulty reached]
          exact ⟨drawings, stop, rfl⟩
      | next drawings onward =>
          rw [run_of_next taken, run_of_next reached]
          exact Outcome.corresponds_after drawings (ih _ _ _ taken onward)

end Glyph

end ShapeFont
