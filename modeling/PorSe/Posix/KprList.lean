import Mathlib

/-! Removal while iterating over a `kpr_list`. Nodes are the entries of a heap, and an access to one that is freed
gives `none`. -/

namespace Posix
open List Function

structure Node (V : Type) where
  prev : Option ℕ
  next : Option ℕ
  data : Option V

/-- A list and the heap of its nodes. -/
structure KprList (V : Type) where
  heap : ℕ → Option (Node V)
  tail : Option ℕ
  head : Option ℕ
  size : ℕ

structure Iterator where
  cur : Option ℕ
  next : Option ℕ

namespace KprList
variable {V : Type} (s : KprList V)

def iterate : Iterator := ⟨s.head, none⟩

def iteratorValid (it : Iterator) : Bool := it.cur.isSome || it.next.isSome

def iteratorNext (it : Iterator) : Option Iterator :=
  match it.cur, it.next with
  | none, none => some it
  | some cur, none => (s.heap cur).map fun n => ⟨n.next, none⟩
  | _, some next => some ⟨some next, none⟩

def iteratorValue (it : Iterator) : Option (Option V) :=
  match it.cur with
  | none => some none
  | some cur => (s.heap cur).map Node.data

def modify (p : Option ℕ) (f : Node V → Node V) : Option (KprList V) :=
  if p.all fun a => (s.heap a).isSome then
    some { s with heap := fun b => if p = some b then (s.heap b).map f else s.heap b }
  else none

def erase (it : Iterator) : Option (KprList V × Iterator) :=
  match it.cur with
  | none => some (s, it)
  | some a => do
    let n ← s.heap a
    let s ← s.modify n.prev fun p => { p with next := n.next }
    let it := if n.prev.isSome then { it with cur := n.prev } else ⟨none, n.next⟩
    let n ← s.heap a
    let s ← s.modify n.next fun q => { q with prev := n.prev }
    let n ← s.heap a
    let head := if s.head = some a then n.next else s.head
    let tail := if s.tail = some a then n.prev else s.tail
    some (⟨update s.heap a none, tail, head, s.size - 1⟩, it)

/-- A loop that erases the current entry under a condition, with the entries it visits. -/
def eraseWhere (cond : Option ℕ → Option V → Bool) : ℕ → KprList V → Iterator → Option (List (Option ℕ) × KprList V)
  | 0, s, it => if iteratorValid it then none else some ([], s)
  | fuel + 1, s, it =>
    if iteratorValid it then do
      let (s', it') ← if cond it.cur (← s.iteratorValue it) then s.erase it else some (s, it)
      let (seen, t) ← eraseWhere cond fuel s' (← s'.iteratorNext it')
      some (it.cur :: seen, t)
    else some ([], s)

def remove [DecidableEq V] (fuel : ℕ) (data : Option V) : Option (KprList V) :=
  (eraseWhere (fun _ d => data == d) fuel s s.iterate).map Prod.snd

/-- The links of the nodes `ns` with the given data are consistent. -/
structure WellFormed (data : ℕ → Option V) (ns : List ℕ) : Prop where
  nodup : ns.Nodup
  head : s.head = ns.head?
  tail : s.tail = ns.getLast?
  size : s.size = ns.length
  node : ∀ pre a post, ns = pre ++ a :: post → s.heap a = some ⟨pre.getLast?, post.head?, data a⟩

variable {s} {data : ℕ → Option V} {pre post : List ℕ} {a : ℕ}

def unlinked (s : KprList V) (a : ℕ) (p q : Option ℕ) : KprList V where
  heap b := if b = a then none else (s.heap b).map fun n =>
    ⟨if q = some b then p else n.prev, if p = some b then q else n.next, n.data⟩
  tail := if s.tail = some a then p else s.tail
  head := if s.head = some a then q else s.head
  size := s.size - 1

lemma erase_eq {p q : Option ℕ} {d : Option V} (hnode : s.heap a = some ⟨p, q, d⟩)
    (hp : ∀ b, p = some b → b ≠ a ∧ (s.heap b).isSome) (hq : ∀ b, q = some b → b ≠ a ∧ (s.heap b).isSome) :
    s.erase ⟨some a, none⟩ = some (s.unlinked a p q, if p.isSome then ⟨p, none⟩ else ⟨none, q⟩) := by
  have hpa : p ≠ some a := fun h => (hp a h).1 rfl
  have hqa : q ≠ some a := fun h => (hq a h).1 rfl
  have hp' : (p.all fun b => (s.heap b).isSome) = true := (Option.all_eq_true _ _).mpr fun b hb => (hp b hb).2
  have hq' : ∀ f : Node V → Node V,
      (q.all fun b => (if p = some b then (s.heap b).map f else s.heap b).isSome) = true := by
    refine fun f => (Option.all_eq_true _ _).mpr fun b hb => ?_
    split_ifs <;> simp [(hq b hb).2]
  simp only [KprList.erase, modify, hnode, hp', hq', hpa, hqa, Option.bind_eq_bind, Option.bind_some, if_true, if_false]
  congr 3
  funext b
  by_cases hb : b = a
  · rw [hb, update_self, if_pos rfl]
  · rw [update_of_ne hb, if_neg hb]
    cases s.heap b <;> split_ifs <;> rfl

lemma WellFormed.unlinked (h : s.WellFormed data (pre ++ a :: post)) :
    (s.unlinked a pre.getLast? post.head?).WellFormed data (pre ++ post) := by
  obtain ⟨ha, hnodup⟩ := nodup_cons.mp (nodup_middle.mp h.nodup)
  refine ⟨hnodup, ?_, ?_, ?_, fun l b r hb => ?_⟩
  · rw [KprList.unlinked, h.head]
    cases pre with
    | nil => simp
    | cons c pre => simp [show c ≠ a from fun h => ha (h ▸ mem_cons_self)]
  · rw [KprList.unlinked, h.tail]
    rcases eq_nil_or_concat' post with rfl | ⟨post, c, rfl⟩
    · simp
    · rw [← cons_append, ← append_assoc, ← append_assoc, getLast?_concat, getLast?_concat, if_neg]
      rintro ⟨⟩
      simp at ha
  · simp [KprList.unlinked, h.size]
  · have hba : b ≠ a := fun h => ha (by simp [hb, h])
    have hafter : ∀ m, l = pre ++ m → post = m ++ b :: r →
        (s.unlinked a pre.getLast? post.head?).heap b = some ⟨l.getLast?, r.head?, data b⟩ := by
      rintro m rfl rfl
      have hlast : pre.getLast? ≠ some b := fun h => disjoint_of_nodup_append hnodup (mem_of_getLast? h) (by simp)
      rw [KprList.unlinked]
      simp only [if_neg hba, h.node (pre ++ a :: m) b r (by simp), Option.map_some, if_neg hlast]
      cases m with
      | nil => simp
      | cons c m =>
        have hcb : c ≠ b := by
          rintro rfl
          simp [nodup_append] at hnodup
        simp [hcb, getLast?_append]
    rcases append_eq_append_iff.mp hb with ⟨m, hl, hm⟩ | ⟨m, hl, hm⟩
    · exact hafter m hl hm
    · cases m with
      | nil => exact hafter [] (by simpa using hl.symm) hm.symm
      | cons c m =>
        obtain ⟨rfl, rfl⟩ := cons_eq_cons.mp hm
        have hfirst : post.head? ≠ some b := fun h => disjoint_of_nodup_append hnodup (by simp [hl]) (mem_of_head? h)
        rw [KprList.unlinked]
        simp only [if_neg hba, h.node l b (m ++ a :: post) (by simp [hl]), Option.map_some, if_neg hfirst]
        cases m with
        | nil => simp [hl]
        | cons c m =>
          have hlast : pre.getLast? ≠ some b := by
            intro hlast
            rw [hl, getLast?_append_of_ne_nil _ (cons_ne_nil _ _), getLast?_cons_cons] at hlast
            exact (nodup_cons.mp (hl ▸ hnodup.of_append_left).of_append_right).1 (mem_of_getLast? hlast)
          simp [hlast]

lemma WellFormed.erase (h : s.WellFormed data (pre ++ a :: post)) :
    ∃ s' it, s.erase ⟨some a, none⟩ = some (s', it) ∧ s'.WellFormed data (pre ++ post) ∧
      s'.iteratorNext it = some ⟨post.head?, none⟩ := by
  have ha := (nodup_cons.mp (nodup_middle.mp h.nodup)).1
  have hwell := h.unlinked
  refine ⟨_, _, erase_eq (h.node pre a post rfl) (fun b hb => ?_) (fun b hb => ?_), hwell, ?_⟩
  · obtain ⟨l, rfl⟩ := getLast?_eq_some_iff.mp hb
    exact ⟨fun hba => ha (by simp [hba]), by simp [h.node l b (a :: post) (by simp)]⟩
  · obtain ⟨r, rfl⟩ := head?_eq_some_iff.mp hb
    exact ⟨fun hba => ha (by simp [hba]), by simp [h.node (pre ++ [a]) b r (by simp)]⟩
  · rcases eq_nil_or_concat' pre with rfl | ⟨l, p, rfl⟩
    · cases post <;> rfl
    · have hp := hwell.node l p post (by simp)
      rw [getLast?_concat] at hp ⊢
      simp [iteratorNext, hp]

lemma WellFormed.eraseWhere (cond : Option ℕ → Option V → Bool) {fuel : ℕ} (h : s.WellFormed data (pre ++ post))
    (hfuel : post.length ≤ fuel) : ∃ s', eraseWhere cond fuel s ⟨post.head?, none⟩ = some (post.map some, s') ∧
      s'.WellFormed data (pre ++ post.filter fun a => !cond (some a) (data a)) := by
  induction post generalizing s pre fuel with
  | nil =>
    refine ⟨s, ?_, h⟩
    cases fuel <;> rfl
  | cons a post ih =>
    obtain ⟨fuel, rfl⟩ := Nat.exists_eq_succ_of_ne_zero (Nat.ne_zero_of_lt hfuel)
    replace hfuel : post.length ≤ fuel := Nat.le_of_succ_le_succ hfuel
    have hnode := h.node pre a post rfl
    have hvalue : s.iteratorValue ⟨some a, none⟩ = some (data a) := by simp [iteratorValue, hnode]
    rw [KprList.eraseWhere, filter_cons, head?_cons]
    by_cases hcond : cond (some a) (data a) = true
    · obtain ⟨s', it, herase, hs', hnext⟩ := h.erase
      obtain ⟨t, hrun, ht⟩ := ih hs' hfuel
      refine ⟨t, ?_, by simpa [hcond] using ht⟩
      simp [iteratorValid, hvalue, hcond, herase, hnext, hrun]
    · obtain ⟨t, hrun, ht⟩ := ih (append_cons pre a post ▸ h) hfuel
      have hnext : s.iteratorNext ⟨some a, none⟩ = some ⟨post.head?, none⟩ := by simp [iteratorNext, hnode]
      refine ⟨t, ?_, by simpa [hcond] using ht⟩
      simp [iteratorValid, hvalue, hcond, hnext, hrun]

/-- The loop visits every entry once and keeps the others linked in order; `remove` takes out those with the value. -/
theorem WellFormed.remove_exact [DecidableEq V] {ns : List ℕ} (h : s.WellFormed data ns) {fuel : ℕ}
    (hfuel : ns.length ≤ fuel) :
    (∀ x, ∃ s', s.remove fuel x = some s' ∧ s'.WellFormed data (ns.filter fun a => !(x == data a))) ∧
      ∀ cond, ∃ s', KprList.eraseWhere cond fuel s s.iterate = some (ns.map some, s') ∧
        s'.WellFormed data (ns.filter fun a => !cond (some a) (data a)) := by
  have hrun := fun cond => WellFormed.eraseWhere cond (nil_append ns ▸ h) hfuel
  rw [← h.head] at hrun
  refine ⟨fun x => ?_, hrun⟩
  obtain ⟨s', hs', hwell⟩ := hrun fun _ d => x == d
  exact ⟨s', by rw [remove, iterate, hs', Option.map_some], hwell⟩

theorem WellFormed.remove_exact_pair : ∃ s : KprList ℕ, s.WellFormed some [0, 1] ∧
    ∃ s', s.remove 2 (some 0) = some s' ∧ s'.WellFormed some [1] := by
  let s : KprList ℕ := ⟨fun a => if a = 0 then some ⟨none, some 1, some 0⟩ else some ⟨some 0, none, some 1⟩,
    some 1, some 0, 2⟩
  have hs : s.WellFormed some [0, 1] := by
    refine ⟨by decide, rfl, rfl, rfl, fun pre a post h => ?_⟩
    rcases pre with _ | ⟨b, _ | ⟨c, pre⟩⟩ <;> simp at h
    · obtain ⟨rfl, rfl⟩ := h
      rfl
    · obtain ⟨rfl, rfl, rfl⟩ := h
      rfl
  exact ⟨s, hs, (hs.remove_exact (Nat.le_refl 2)).1 (some 0)⟩

end KprList

end Posix
