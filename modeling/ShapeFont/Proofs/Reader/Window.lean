import ShapeFont.Bytes.Buffer

/-!
# Windows on a file in memory

A window that shows some bytes has a word for each position in them, finds each of them in its
memory, and gives out parts that show slices of them. Nothing outside of the bytes it shows is ever
reached for.
-/

namespace ShapeFont

open Reader (endsText)

namespace Word

theorem of_int_of_fits {value : Int} (lower : -0x80000000 ≤ value) (upper : value ≤ 0x7FFFFFFF) :
    ∃ word, ofInt value = .ok word ∧ word.toInt = value := by
  refine ⟨Int32.ofInt value, if_pos ⟨lower, upper⟩, Int32.toInt_ofInt_of_le lower ?_⟩
  omega

theorem sum_of_fits (left right : Int32) (lower : -0x80000000 ≤ left.toInt + right.toInt)
    (upper : left.toInt + right.toInt ≤ 0x7FFFFFFF) :
    ∃ total, sum left right = .ok total ∧ total.toInt = left.toInt + right.toInt :=
  of_int_of_fits lower upper

theorem difference_of_fits (left right : Int32) (lower : -0x80000000 ≤ left.toInt - right.toInt)
    (upper : left.toInt - right.toInt ≤ 0x7FFFFFFF) :
    ∃ rest, difference left right = .ok rest ∧ rest.toInt = left.toInt - right.toInt :=
  of_int_of_fits lower upper

theorem to_int_le (word : Int32) : word.toInt ≤ 0x7FFFFFFF := by
  have upper := word.toInt_lt
  omega

theorem to_int_nonnegative (word : Int32) : (nonnegative word).toInt = word.toInt.toNat := by
  unfold nonnegative
  by_cases negative : word < 0
  · rw [if_pos negative, Int32.toInt_zero]
    rw [Int32.lt_iff_toInt_lt, Int32.toInt_zero] at negative
    omega
  · rw [if_neg negative]
    rw [Int32.lt_iff_toInt_lt, Int32.toInt_zero] at negative
    omega

theorem to_int_least (left right : Int32) :
    (least left right).toInt = min left.toInt right.toInt := by
  unfold least
  by_cases less : left < right
  · rw [if_pos less]
    rw [Int32.lt_iff_toInt_lt] at less
    omega
  · rw [if_neg less]
    rw [Int32.lt_iff_toInt_lt] at less
    omega

theorem sum_one_of_lt {word limit : Int32} (below : word < limit) :
    ∃ next, sum word 1 = .ok next ∧ next.toInt = word.toInt + 1 := by
  have one : (1 : Int32).toInt = 1 := by decide
  have lower := word.le_toInt
  have upper := to_int_le limit
  rw [Int32.lt_iff_toInt_lt] at below
  rw [← one]
  exact sum_of_fits word 1 (by omega) (by omega)

end Word

namespace Window

variable {window : Window} {data : Bytes}

/-- The window is on `data`. -/
structure Shows (window : Window) (data : Bytes) : Prop where
  size : window.size.toInt = data.length
  inside : window.start + data.length ≤ window.memory.size
  contents : (window.memory.toList.drop window.start).take data.length = data

structure IsSlice (part window : Window) (data : Bytes) (offset length : Nat) : Prop where
  memory : part.memory = window.memory
  start : part.start = window.start + offset
  size : part.size.toInt = length
  inside : offset + length ≤ data.length
  bytes : part.bytes = .ok ((data.drop offset).take length)

theorem shows_of_bytes (small : data.length < 0x80000000) : (ofBytes data).Shows data where
  size := by
    have whole : min data.length 0x7FFFFFFF = data.length := Nat.min_eq_left (by omega)
    rw [ofBytes, whole]
    exact Int32.toInt_ofNat_of_lt small
  inside := by simp [ofBytes]
  contents := by simp [ofBytes]

namespace Shows

variable {position : Int32} {index : Nat}

theorem length_le (shows : window.Shows data) : (data.length : Int) ≤ 0x7FFFFFFF := by
  rw [← shows.size]
  exact Word.to_int_le window.size

theorem place (shows : window.Shows data) (here : position.toInt = index)
    (inside : index ≤ data.length) : window.place position = .ok (window.start + index) := by
  have room := shows.inside
  have sum : (window.start : Int) + index = (window.start + index : Nat) := rfl
  unfold Window.place
  rw [here, sum, if_pos (by omega)]
  rfl

theorem get_eq (shows : window.Shows data) (inside : index < data.length) :
    window.memory[window.start + index]? = data[index]? := by
  have same := congrArg (·[index]?) shows.contents
  simpa only [List.getElem?_take_of_lt inside, List.getElem?_drop, Array.getElem?_toList] using same

theorem load (shows : window.Shows data) (here : position.toInt = index) {value : UInt8}
    (there : data[index]? = some value) : window.load position = .ok value := by
  obtain ⟨inside, -⟩ := List.getElem?_eq_some_iff.mp there
  have found : window.memory[window.start + index]? = some value :=
    (shows.get_eq inside).trans there
  unfold Window.load
  simp only [shows.place here (Nat.le_of_lt inside), bind, Except.bind, found]

theorem bytes (shows : window.Shows data) : window.bytes = .ok data := by
  have first : window.place 0 = .ok (window.start + 0) := shows.place rfl (Nat.zero_le _)
  have last := shows.place shows.size (Nat.le_refl _)
  unfold Window.bytes
  simp only [first, last, bind, Except.bind]
  show Except.ok _ = _
  rw [Array.toList_extract, List.extract_eq_take_drop, Nat.add_zero, Nat.add_sub_cancel_left,
    shows.contents]

theorem sub (shows : window.Shows data) {part : Window} {offset length : Nat}
    (memory : part.memory = window.memory) (start : part.start = window.start + offset)
    (size : part.size.toInt = length) (inside : offset + length ≤ data.length) :
    part.Shows ((data.drop offset).take length) := by
  have count : ((data.drop offset).take length).length = length := by
    rw [List.length_take, List.length_drop]
    omega
  have room := shows.inside
  refine ⟨?_, ?_, ?_⟩
  · rw [size, count]
  · rw [count, start, memory]
    omega
  · rw [count, start, memory, ← shows.contents, ← List.drop_drop, List.drop_take, List.take_take,
      Nat.min_eq_left (by omega)]

theorem slice_of_proper (shows : window.Shows data) {offset length : Int32}
    (fromStart : 0 ≤ offset.toInt) (counts : 0 ≤ length.toInt)
    (inside : offset.toInt ≤ data.length) :
    window.slice offset length =
      if data.length - offset.toInt < length.toInt then .ok empty
      else .ok { window with start := window.start + offset.toInt.toNat, size := length } := by
  have size := shows.size
  have bound := shows.length_le
  obtain ⟨behind, subtracted, left⟩ :=
    Word.difference_of_fits window.size offset (by omega) (by omega)
  have proper : ¬(offset < 0 ∨ length < 0 ∨ window.size < offset) := by
    simp only [Int32.lt_iff_toInt_lt, Int32.toInt_zero]
    omega
  have few : behind < length ↔ data.length - offset.toInt < length.toInt := by
    rw [Int32.lt_iff_toInt_lt, left, size]
  have start := shows.place (Int.toNat_of_nonneg fromStart).symm (by omega)
  unfold Window.slice
  rw [if_neg proper]
  simp only [subtracted, bind, Except.bind, few, start]
  rfl

theorem slice_of_inside (shows : window.Shows data) {offset length : Int32} {first count : Nat}
    (begins : offset.toInt = first) (counts : length.toInt = count)
    (inside : first + count ≤ data.length) :
    ∃ part, window.slice offset length = .ok part ∧ part.IsSlice window data first count := by
  let part : Window := { memory := window.memory, start := window.start + first, size := length }
  have contents : part.Shows ((data.drop first).take count) := shows.sub rfl rfl counts inside
  refine ⟨part, ?_, ⟨rfl, rfl, counts, inside, contents.bytes⟩⟩
  rw [shows.slice_of_proper (by omega) (by omega) (by omega), if_neg (by omega), begins]
  rfl

theorem slice_of_outside (shows : window.Shows data) {offset length : Int32}
    (outside : ¬(0 ≤ offset.toInt ∧ 0 ≤ length.toInt ∧
      offset.toInt + length.toInt ≤ data.length)) :
    window.slice offset length = .ok empty := by
  by_cases improper : offset < 0 ∨ length < 0 ∨ window.size < offset
  · unfold Window.slice
    rw [if_pos improper]
    rfl
  · simp only [Int32.lt_iff_toInt_lt, Int32.toInt_zero, shows.size] at improper
    rw [shows.slice_of_proper (by omega) (by omega) (by omega), if_pos (by omega)]

theorem front (shows : window.Shows data) (here : position.toInt = index)
    (before : position < window.size) :
    ∃ value, data[index]? = some value ∧ data.drop index = value :: data.drop (index + 1) := by
  rw [Int32.lt_iff_toInt_lt, shows.size, here] at before
  have inside : index < data.length := by omega
  exact ⟨data[index], List.getElem?_eq_getElem inside, List.drop_eq_getElem_cons inside⟩

end Shows

theorem bytes_empty : empty.bytes = .ok [] := rfl

theorem Shows.text_end (shows : window.Shows data) {position : Int32} {index : Nat}
    (here : position.toInt = index) (inside : index ≤ data.length) :
    ∃ stop, window.textEnd position = .ok stop ∧
      stop.toInt = (index + ((data.drop index).takeWhile fun value => !endsText value).length : Nat) := by
  have size := shows.size
  fun_induction window.textEnd position generalizing index with
  | case1 position more misstep failed =>
      obtain ⟨value, there, -⟩ := shows.front here more
      rw [shows.load here there] at failed
      contradiction
  | case2 position more value loaded ends =>
      obtain ⟨first, there, front⟩ := shows.front here more
      obtain rfl : first = value := by simpa [shows.load here there] using loaded
      refine ⟨position, rfl, ?_⟩
      rw [front, List.takeWhile_cons_of_neg (by simp [ends])]
      exact here
  | case3 position more value loaded goes misstep failed =>
      obtain ⟨next, summed, -⟩ := Word.sum_one_of_lt more
      rw [summed] at failed
      contradiction
  | case4 position more value loaded goes next summed ih =>
      obtain ⟨first, there, front⟩ := shows.front here more
      obtain rfl : first = value := by simpa [shows.load here there] using loaded
      obtain ⟨after, found, further⟩ := Word.sum_one_of_lt more
      obtain rfl : after = next := by simpa [found] using summed
      have insideNext : index + 1 ≤ data.length := (List.getElem?_eq_some_iff.mp there).1
      obtain ⟨stop, ended, place⟩ := ih (by omega) insideNext
      refine ⟨stop, ended, ?_⟩
      rw [place, front, List.takeWhile_cons_of_pos (by simp [goes]), List.length_cons]
      omega
  | case5 position ended =>
      rw [Int32.lt_iff_toInt_lt, size, here] at ended
      have behind : index = data.length := by omega
      refine ⟨position, rfl, ?_⟩
      rw [behind, List.drop_length]
      exact here.trans (congrArg _ behind)

end Window

end ShapeFont
