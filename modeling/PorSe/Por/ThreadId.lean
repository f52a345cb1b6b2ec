import Mathlib

/-! Thread identifiers: the path of non-zero local ids from the main thread. The
empty id belongs to `program_init` and stands for "no thread". -/

namespace Por

instance neZero_localIds : NeZero 65536 := inferInstance

structure ThreadId where
  ids : List (Fin 65536)
  ids_ne_zero : (0 : Fin 65536) ∉ ids

namespace ThreadId

lemma ids_injective : Function.Injective ids := by
  rintro ⟨as, _⟩ ⟨bs, _⟩ h
  obtain rfl : as = bs := h
  rfl

/-- `operator<` compares the local ids from the front, a proper prefix being smaller. -/
instance : LinearOrder ThreadId := LinearOrder.lift' ids ids_injective

instance : LawfulBEq ThreadId := inferInstance

def empty : ThreadId := ⟨[], by simp⟩

def child (parent : ThreadId) (localId : Fin 65536) (h : localId ≠ 0) : ThreadId :=
  ⟨parent.ids ++ [localId], by simpa [parent.ids_ne_zero] using h.symm⟩

def isEmpty (t : ThreadId) : Bool := t.ids.isEmpty

lemma isEmpty_iff {t : ThreadId} : t.isEmpty = true ↔ t = empty := by
  constructor
  · intro h
    exact ids_injective (List.isEmpty_iff.mp h)
  · rintro rfl
    rfl

lemma isEmpty_eq_false_iff {t : ThreadId} : t.isEmpty = false ↔ t ≠ empty := by
  rw [← Bool.not_eq_true, isEmpty_iff]

/-- The id of the thread that `configuration_root::add_thread` creates first. -/
def main : ThreadId := empty.child 1 (by decide)

lemma main_le {t : ThreadId} (h : t ≠ empty) : main ≤ t := by
  obtain ⟨ids, h0⟩ := t
  cases ids with
  | nil => exact absurd rfl h
  | cons a as =>
    have ha : 1 ≤ a := by
      rw [List.mem_cons, not_or] at h0
      exact Fin.one_le_of_ne_zero fun h => h0.1 h.symm
    rcases lt_or_eq_of_le ha with ha | rfl
    · exact le_of_lt (List.Lex.rel ha)
    · exact List.cons_le_cons _ (not_lt.mp (List.not_lt_nil as))

end ThreadId

def worker : ThreadId := ThreadId.main.child 1 (by decide)
def worker2 : ThreadId := ThreadId.main.child 2 (by decide)
def worker3 : ThreadId := ThreadId.main.child 3 (by decide)

end Por
