import TripleStore.Result

/-!
# Reads that stay in their file

A read of an opened file can end in an answer or in an error. `Contained` leaves two ends: an
answer, or a damage that was found by reading inside the file. It goes along chains of checks
(`Contained.bind`), so a reader is contained if each of its steps is.
-/

namespace TripleStore

/-- The damage is a position outside of the file. -/
def Damage.leavesFile : Damage → Bool
  | offsetPositionOverflow => true
  | offsetOutside _ => true
  | valueOutside => true
  | _ => false

/-- A read answers, or finds a damage inside the file. -/
inductive Contained {α : Type} : Result α → Prop
  | ok (a : α) : Contained (.ok a)
  | corrupt {damage : Damage} (h : damage.leavesFile = false) : Contained (.error (.corrupt damage))

namespace Contained

variable {α β : Type} {x : Result α} {f : α → Result β} {damage : Damage}

theorem of_exists (h : ∃ a, x = .ok a) : Contained x := by
  obtain ⟨a, rfl⟩ := h
  exact .ok a

/-- A step that needs the answer of a contained one. -/
theorem bind (hx : Contained x) (hf : ∀ a, x = .ok a → Contained (f a)) :
    Contained (x >>= f) := by
  cases hx with
  | ok a => exact hf a rfl
  | corrupt h => exact .corrupt h

theorem map (hx : Contained x) (g : α → β) : Contained (x.map g) := by
  cases hx with
  | ok a => exact .ok (g a)
  | corrupt h => exact .corrupt h

theorem require (c : Prop) [Decidable c] (h : damage.leavesFile = false) :
    Contained (require c (.corrupt damage)) := by
  unfold TripleStore.require
  split
  · exact .ok ()
  · exact .corrupt h

theorem orFail (o : Option α) (h : damage.leavesFile = false) :
    Contained (orFail o (.corrupt damage)) := by
  cases o with
  | none => exact .corrupt h
  | some a => exact .ok a

theorem forM {l : List α} {f : α → Result Unit} (hf : ∀ a ∈ l, Contained (f a)) :
    Contained (l.forM f) := by
  induction l with
  | nil => exact .ok ()
  | cons a l ih =>
    exact (hf a List.mem_cons_self).bind fun _ _ => ih fun b hb => hf b (List.mem_cons_of_mem a hb)

/-- A contained read that fails reports a damage. -/
theorem eq_corrupt (hx : Contained x) {e : StoreError} (he : x = .error e) :
    ∃ damage, e = .corrupt damage ∧ damage.leavesFile = false := by
  subst he
  cases hx with
  | corrupt h => exact ⟨_, rfl, h⟩

end Contained

/-- The read fails because an id or a position is out of range. -/
def IsOutOfRange {α : Type} (x : Result α) : Prop :=
  ∃ what index limit, x = .error (.outOfRange what index limit)

theorem Contained.not_isOutOfRange {α : Type} {x : Result α} (h : Contained x) :
    ¬ IsOutOfRange x := by
  rintro ⟨what, index, limit, rfl⟩
  nomatch h

end TripleStore
