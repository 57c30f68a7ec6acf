import ShapeFont.Fault
import ShapeFont.Proofs.Reader.Locality

/-!
# What a parser depends on

A parser is `Steady` when more bytes behind its file can change its outcome only where bytes were
missing: what it accepted it accepts again, from any file that has the bytes up to its reach, and
what it refused for another reason it refuses again. Parsers that read a part, refuse it when it was
short and go on from there are steady when their readings are local.
-/

namespace ShapeFont

def LoadFault.OfCut (fault : LoadFault) : Prop :=
  fault.kind = .truncatedFile ∨ fault.kind = .invalidHeader

namespace Reader

/-- A parser whose outcome rests on the bytes it reached, and whose faults show that bytes are
missing or stay in every longer file. -/
structure Steady {Value : Type} (parse : Reader → Except LoadFault (Value × Reader)) : Prop where
  onward : ∀ {reader after : Reader} {value : Value}, parse reader = .ok (value, after) →
    Onward reader after
  full : ∀ {reader after : Reader} {value : Value}, parse reader = .ok (value, after) →
    reader.shortRead = false → after.shortRead = false
  same : ∀ {reader after : Reader} {value : Value} {other : Array UInt8}, reader.Sound →
    parse reader = .ok (value, after) → after.shortRead = false →
    Shares after.reach reader.data other → parse (reader.on other) = .ok (value, after.on other)
  fails : ∀ {reader : Reader} {fault : LoadFault} {other : Array UInt8}, reader.Sound →
    reader.shortRead = false → parse reader = .error fault →
    reader.data.toList <+: other.toList →
    fault.OfCut ∨ ∃ later, parse (reader.on other) = .error later

def checked {Value Result : Type} (read : Reader → Value × Reader) (fault : LoadFault)
    (next : Value → Reader → Except LoadFault (Result × Reader)) (reader : Reader) :
    Except LoadFault (Result × Reader) :=
  match read reader with
  | (value, after) => if after.shortRead then .error fault else next value after

section

variable {Value Result : Type}

theorem checked_eq (read : Reader → Value × Reader) (fault : LoadFault)
    (next : Value → Reader → Except LoadFault (Result × Reader)) (reader : Reader) :
    checked read fault next reader =
      if (read reader).2.shortRead then .error fault
      else next (read reader).1 (read reader).2 := rfl

theorem steady_ok (value : Value) : Steady fun reader => .ok (value, reader) where
  onward := by
    rintro reader after result ⟨⟩
    exact Onward.refl reader
  full := by
    rintro reader after result ⟨⟩
    exact id
  same := by
    rintro reader after result other - ⟨⟩ - -
    rfl
  fails := by
    rintro reader fault other - - ⟨⟩

theorem steady_error (fault : LoadFault) :
    Steady fun _ : Reader => (.error fault : Except LoadFault (Value × Reader)) where
  onward := by rintro reader after result ⟨⟩
  full := by rintro reader after result ⟨⟩
  same := by rintro reader after result other - ⟨⟩
  fails := fun _ _ _ _ => .inr ⟨fault, rfl⟩

theorem Steady.bind {parse : Reader → Except LoadFault (Value × Reader)}
    {next : Value → Reader → Except LoadFault (Result × Reader)} (front : Steady parse)
    (back : ∀ value, Steady (next value)) :
    Steady fun reader => (parse reader).bind fun found => next found.1 found.2 where
  onward := by
    intro reader after result done
    cases begun : parse reader with
    | error fault => simp [begun, Except.bind] at done
    | ok found =>
        rw [begun] at done
        exact (front.onward begun).trans ((back _).onward done)
  full := by
    intro reader after result done full
    cases begun : parse reader with
    | error fault => simp [begun, Except.bind] at done
    | ok found =>
        rw [begun] at done
        exact (back _).full done (front.full begun full)
  same := by
    intro reader after result other sound done full shares
    cases begun : parse reader with
    | error fault => simp [begun, Except.bind] at done
    | ok found =>
        rw [begun] at done
        have moved := front.onward begun
        have ended := (back _).onward done
        rw [front.same sound begun (ended.full full) (shares.of_le ended.reach)]
        exact (back _).same (moved.sound sound) done full (by rwa [moved.data])
  fails := by
    intro reader fault other sound full failed longer
    cases begun : parse reader with
    | error found =>
        rw [begun] at failed
        obtain rfl := Except.error.inj failed
        -- What fails at the front of the longer file fails all of it, wherever it stops there.
        rcases front.fails sound full begun longer with cut | ⟨later, again⟩
        · exact .inl cut
        · exact .inr ⟨later, by rw [again]; rfl⟩
    | ok found =>
        rw [begun] at failed
        have moved := front.onward begun
        have fullMiddle := front.full begun full
        have inside := (moved.sound sound).reach
        rw [size, moved.data] at inside
        rw [front.same sound begun fullMiddle (Shares.of_longer inside longer)]
        exact (back _).fails (moved.sound sound) fullMiddle failed (by rwa [moved.data])

theorem checked_bind (read : Reader → Value × Reader) (fault : LoadFault)
    (next : Value → Reader → Except LoadFault (Result × Reader)) :
    checked read fault next = fun reader =>
      (checked read fault (fun value after => .ok (value, after)) reader).bind
        fun found => next found.1 found.2 := by
  funext reader
  simp only [checked_eq]
  split <;> rfl

theorem steady_whole {read : Reader → Value × Reader} {fault : LoadFault} (front : Local read)
    (cut : fault.kind = .truncatedFile) :
    Steady (checked read fault fun value after => .ok (value, after)) where
  onward := by
    intro reader after result done
    rw [checked_eq] at done
    split at done
    · simp at done
    · obtain ⟨-, rfl⟩ := Prod.mk.inj (Except.ok.inj done)
      exact front.onward reader
  full := by
    intro reader after result done _
    rw [checked_eq] at done
    split at done
    · simp at done
    · next full =>
        obtain ⟨-, rfl⟩ := Prod.mk.inj (Except.ok.inj done)
        simpa using full
  same := by
    intro reader after result other sound done full shares
    rw [checked_eq] at done
    split at done
    · simp at done
    · obtain ⟨rfl, rfl⟩ := Prod.mk.inj (Except.ok.inj done)
      rw [checked_eq, front.same sound full shares]
      dsimp only
      rw [short_read_on, full]
      rfl
  fails := by
    intro reader found other _ _ failed _
    rw [checked_eq] at failed
    split at failed
    · obtain rfl := Except.error.inj failed
      exact .inl (.inl cut)
    · simp at failed

theorem steady_checked {read : Reader → Value × Reader} {fault : LoadFault}
    {next : Value → Reader → Except LoadFault (Result × Reader)} (front : Local read)
    (cut : fault.kind = .truncatedFile) (back : ∀ value, Steady (next value)) :
    Steady (checked read fault next) := by
  rw [checked_bind]
  exact (steady_whole front cut).bind back

theorem steady_each {Item : Type} {item : Value → Item → Reader → Except LoadFault (Value × Reader)}
    {items : Value → List Item → Reader → Except LoadFault (Value × Reader)}
    (front : ∀ value next, Steady (item value next))
    (done : ∀ value reader, items value [] reader = .ok (value, reader))
    (further : ∀ value next rest reader, items value (next :: rest) reader =
      (item value next reader).bind fun found => items found.1 rest found.2)
    (value : Value) (table : List Item) : Steady (items value table) := by
  induction table generalizing value with
  | nil =>
      rw [funext (done value)]
      exact steady_ok value
  | cons next rest ih =>
      rw [funext (further value next rest)]
      exact (front value next).bind ih

end

end Reader

end ShapeFont
