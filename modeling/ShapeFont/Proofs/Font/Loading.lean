import ShapeFont.Proofs.Font.Outcomes

/-!
# Loading what stands behind a heading

A file with a heading is loaded as its table is read. Where several entries of a table set the same
thing, the last of them counts: `lastOf` says what it gives.
-/

namespace ShapeFont

section

variable {State Item Value : Type}

def lastOf (give : Item → Option Value) (items : List Item) : Option Value :=
  items.reverse.findSome? give

theorem last_of_cons (give : Item → Option Value) (item : Item) (items : List Item) :
    lastOf give (item :: items) = (lastOf give items).or (give item) := by
  rw [lastOf, List.reverse_cons, List.findSome?_append, lastOf, List.findSome?_singleton]

/-- Items are worked in one after the other, and what is seen of the state is what the last one that
gave anything made of it. -/
theorem view_foldl {View : Type} (give : Item → Option Value) (view : State → View)
    (step : State → Item → State) (wrap : Value → View)
    (given : ∀ state item, view (step state item) = (give item).elim (view state) wrap)
    (items : List Item) (state : State) :
    view (items.foldl step state) = (lastOf give items).elim (view state) wrap := by
  induction items generalizing state with
  | nil => rfl
  | cons item items ih =>
      rw [List.foldl_cons, ih, given, last_of_cons]
      cases lastOf give items <;> rfl

theorem view_foldl_of_none (give : Item → Option Value) (view : State → Option Value)
    (step : State → Item → State)
    (given : ∀ state item, view (step state item) = (give item).elim (view state) some)
    (items : List Item) {state : State} (empty : view state = none) :
    view (items.foldl step state) = lastOf give items := by
  rw [view_foldl give view step some given, empty]
  cases lastOf give items <;> rfl

theorem kept_foldl (keep : State → Value) (step : State → Item → State)
    (kept : ∀ state item, keep (step state item) = keep state) (items : List Item) (state : State) :
    keep (items.foldl step state) = keep state := by
  induction items generalizing state with
  | nil => rfl
  | cons item items ih => rw [List.foldl_cons, ih, kept]

end

namespace Font

open Reader

theorem spans_metrics : Spans readMetrics 3 fun bytes =>
    (bytes.numberAt 0 1, bytes.numberAt 1 1, bytes.numberAt 2 1) := by
  have parts := (spans_uint 1).bind fun above => (spans_uint 1).bind fun below =>
    (spans_uint 1).bind fun modes => spans_pure (above, below, modes)
  exact parts.congr fun bytes _ => by simp [Bytes.numberAt]

def metrics (font : Font) : Bool × Int × Int × Int :=
  (font.hasMetrics, font.above, font.below, font.modes)

theorem read_table_eq (header : Header) (reader : Reader) : readTable header reader =
    match header.kind with
    | .shapes => Shapes.read header.blank reader
    | .bigFont => BigFont.read header.blank reader
    | .unifont => Unifont.read header.blank reader := by
  obtain ⟨format, kind, version⟩ := header
  cases kind with
  | shapes => rfl
  | bigFont => rfl
  | unifont => rfl

theorem load_heading (heading : Heading) (kind : FontKind) (body : Bytes) :
    ∃ reader, Behind (heading.bytes kind ++ body) body reader ∧
      ofWhole (heading.bytes kind ++ body) =
        (readTable (heading.header kind) reader).map Prod.fst := by
  obtain ⟨reader, read, behind⟩ := read_heading heading kind body
  exact ⟨reader, behind, whole_of_read read⟩

end Font

end ShapeFont
