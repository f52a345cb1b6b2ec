import Mathlib

/-! The quarantine of the sub-allocators: a ring of the last frees, which hands back the
one that has to be carried out now. -/

namespace Pseudoalloc
open List

def unlimited : ℕ := 2 ^ 32 - 1

/-- The data is allocated by the first call that needs it. -/
structure Quarantine (T : Type) where
  data : Option (List T)
  capacity : ℕ
  pos : ℕ

namespace Quarantine
variable {T : Type} [Inhabited T]

def initial (capacity : ℕ) : Quarantine T := ⟨none, capacity, 0⟩

/-- The value to free now, which is the default one if there is none. -/
def deallocate (q : Quarantine T) (ptr : T) : T × Quarantine T :=
  if q.capacity = 0 then (ptr, q)
  else if q.capacity = unlimited then (default, q)
  else
    let data := q.data.getD (List.replicate q.capacity default)
    (data.getD q.pos default, ⟨some (data.set q.pos ptr), q.capacity, if q.pos + 1 = q.capacity then 0 else q.pos + 1⟩)

/-- The ring has room for `capacity` values, at least one. -/
structure Valid (q : Quarantine T) : Prop where
  length : ∀ data, q.data = some data → data.length = q.capacity
  pos : q.capacity ≠ 0 → q.pos < q.capacity

omit [Inhabited T] in
lemma valid_initial (capacity : ℕ) : (initial capacity : Quarantine T).Valid where
  length _ h := by cases h
  pos h := Nat.pos_of_ne_zero h

lemma deallocate_valid {q : Quarantine T} (h : q.Valid) (ptr : T) : (q.deallocate ptr).2.Valid := by
  rw [deallocate]
  by_cases hzero : q.capacity = 0
  · rwa [if_pos hzero]
  rw [if_neg hzero]
  by_cases hunlimited : q.capacity = unlimited
  · rwa [if_pos hunlimited]
  rw [if_neg hunlimited]
  refine ⟨?_, fun _ => ?_⟩
  · rintro data hdata
    cases hdata
    cases hq : q.data with
    | none => simp
    | some data => simpa using h.length data hq
  · have := h.pos hzero
    dsimp only
    split_ifs <;> omega

variable [DecidableEq T] {q : Quarantine T}

def held (q : Quarantine T) : List T := (q.data.getD []).filter fun x => decide (x ≠ default)

/-- The list of waiting values after a call that hands out `released`. -/
def after (held : List T) (ptr released : T) : List T :=
  if released = default then ptr :: held else (ptr :: held).erase released

lemma after_perm {held : List T} {ptr released : T} (hne : released ≠ default) (hmem : released ∈ ptr :: held) :
    (ptr :: held).Perm (released :: after held ptr released) := by
  rw [after, if_neg hne]
  exact perm_cons_erase hmem

lemma after_subperm {held held' : List T} (h : held.Subperm held') (ptr released : T) :
    (after held ptr released).Subperm (after held' ptr released) := by
  rw [after, after]
  split_ifs
  · exact (subperm_cons ptr).mpr h
  · exact ((subperm_cons ptr).mpr h).erase released

def pending (q : Quarantine T) : List T := (q.data.getD (List.replicate q.capacity default)).rotate q.pos

omit [DecidableEq T] in
lemma length_pending (h : q.Valid) : q.pending.length = q.capacity := by
  rw [pending]
  cases hq : q.data with
  | none => simp
  | some data => simpa using h.length data hq

lemma pending_perm (q : Quarantine T) : (q.pending.filter fun x => decide (x ≠ default)).Perm q.held := by
  refine ((rotate_perm _ _).filter _).trans (List.Perm.of_eq ?_)
  rw [held]
  cases q.data <;> simp

omit [DecidableEq T] in
lemma deallocate_pending (h : q.Valid) (hzero : q.capacity ≠ 0) (hunlimited : q.capacity ≠ unlimited) (ptr : T) :
    ∃ rest, q.pending = (q.deallocate ptr).1 :: rest ∧ (q.deallocate ptr).2.pending = rest ++ [ptr] := by
  have hlength := length_pending h
  have hpos := h.pos hzero
  rw [deallocate, if_neg hzero, if_neg hunlimited]
  simp only [pending, Option.getD_some, length_rotate] at hlength ⊢
  generalize q.data.getD (replicate q.capacity default) = data at hlength ⊢
  obtain ⟨pre, x, post, rfl, hpre⟩ : ∃ pre x post, data = pre ++ x :: post ∧ pre.length = q.pos :=
    ⟨data.take q.pos, data[q.pos], data.drop (q.pos + 1), by simp, by simp; omega⟩
  have hset : (pre ++ x :: post).set pre.length ptr = pre ++ [ptr] ++ post := by simp
  refine ⟨post ++ pre, by rw [← hpre]; simp, ?_⟩
  rw [← hpre, hset]
  split_ifs with hend
  · obtain rfl : post = [] := length_eq_zero_iff.mp (by simp at hlength; omega)
    simp
  · have hnext : pre.length + 1 = (pre ++ [ptr]).length := by simp
    rw [hnext, rotate_append_length_eq, append_assoc]

lemma deallocate_held (h : q.Valid) (ptr : T) :
    (q.deallocate ptr).2.held.Subperm (after q.held ptr (q.deallocate ptr).1) ∧
      ((q.deallocate ptr).1 ≠ default → (q.deallocate ptr).1 ∈ ptr :: q.held) := by
  by_cases hzero : q.capacity = 0
  · rw [deallocate, if_pos hzero]
    refine ⟨?_, fun _ => mem_cons_self⟩
    rw [after, erase_cons_head]
    split_ifs
    · exact (sublist_cons_self ptr _).subperm
    · exact List.Subperm.refl _
  by_cases hunlimited : q.capacity = unlimited
  · rw [deallocate, if_neg hzero, if_pos hunlimited]
    refine ⟨?_, fun hne => absurd rfl hne⟩
    rw [after, if_pos rfl]
    exact (sublist_cons_self ptr _).subperm
  obtain ⟨rest, hpending, hpending'⟩ := deallocate_pending h hzero hunlimited ptr
  have hheld := q.pending_perm.symm
  have hheld' := (q.deallocate ptr).2.pending_perm.symm
  rw [hpending, filter_cons] at hheld
  rw [hpending', filter_append] at hheld'
  have hnew : (q.deallocate ptr).2.held.Subperm (ptr :: rest.filter fun x => decide (x ≠ default)) := by
    refine hheld'.subperm.trans (List.Subperm.trans ?_ (perm_append_singleton ptr _).subperm)
    exact (filter_sublist.append_left _).subperm
  rw [after]
  by_cases hr : (q.deallocate ptr).1 = default
  · rw [if_neg (by simpa using hr)] at hheld
    rw [if_pos hr]
    exact ⟨hnew.trans (hheld.symm.cons ptr).subperm, fun hne => absurd hr hne⟩
  · rw [if_pos (by simpa using hr)] at hheld
    rw [if_neg hr]
    have herase := ((hheld.cons ptr).trans (List.Perm.swap _ _ _)).erase (q.deallocate ptr).1
    rw [erase_cons_head] at herase
    exact ⟨hnew.trans herase.symm.subperm, fun _ => mem_cons_of_mem ptr (hheld.mem_iff.mpr mem_cons_self)⟩

end Quarantine
end Pseudoalloc
