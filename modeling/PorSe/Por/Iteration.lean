import PorSe.Por.LocalConfiguration

/-! `event_iterator` and `configuration_iterator` visit the events of a local configuration
and of a configuration, each of them once. -/

namespace Por
open List SortedMap Event

/-- `_thread` as the events from it to the `rend()` of its map, or `none` when it belongs to no map, and `_event`. -/
structure Position (D : Type) where
  thread : Option (List (Event D))
  event : Option (Event D)
deriving DecidableEq

variable {D : Type} [DecidableEq D]

namespace Position

def finish : Position D := ⟨none, none⟩

/-- The next event of the thread, or else the last one of the next thread. -/
def advance (it : Position D) (e : Event D) (last : Option (Position D)) : Option (Position D) :=
  match e.threadPredecessor, it.thread with
  | some p, _ => some { it with event := some p }
  | none, some (_ :: c :: cs) => some ⟨some (c :: cs), some c⟩
  | none, _ => last

variable (next : Position D → Option (Position D))

/-- What a loop from `it` to the end visits; fails with an assertion, and when the fuel runs out. -/
def collect : ℕ → Position D → Option (List (Event D))
  | 0, _ => none
  | fuel + 1, it =>
    if it = finish then some []
    else do return (← it.event) :: (← collect fuel (← next it))

def Yields (it : Position D) (es : List (Event D)) : Prop := collect next (es.length + 1) it = some es

variable {next} {it : Position D} {t : Option (List (Event D))} {c x : Event D} {T es L : List (Event D)}

lemma yields_finish : Yields next finish [] := if_pos rfl

lemma Yields.cons (h : Yields next it L) (hnext : next ⟨t, some x⟩ = some it) : Yields next ⟨t, some x⟩ (x :: L) := by
  rw [Yields] at h
  rw [Yields, length_cons, collect, if_neg (by simp [finish]), hnext]
  simp [h]

lemma yields_chains (last : Event D → Event D → Option (Position D))
    (hnext : ∀ y ∈ es, ∀ c T, next ⟨some (c :: T), some y⟩ = advance ⟨some (c :: T), some y⟩ y (last c y))
    (hlast : ∀ y ∈ es.getLast?, ∀ c, ∃ it, last c y = some it ∧ Yields next it L)
    (hes : es = x.threadChain ++ T.flatMap threadChain) : Yields next ⟨some (c :: T), some x⟩ (es ++ L) := by
  induction es generalizing c x T with
  | nil =>
    rw [threadChain_eq] at hes
    cases hes
  | cons y es ih =>
    rw [threadChain_eq, cons_append] at hes
    obtain ⟨rfl, hes⟩ := cons.inj hes
    obtain ⟨hy, hnext⟩ := forall_mem_cons.mp hnext
    have hrest := fun c x T => ih (c := c) (x := x) (T := T) hnext fun z hz =>
      hlast z (by simp [getLast?_cons, Option.mem_def.mp hz])
    cases hp : y.threadPredecessor with
    | some p => exact (hrest c p T (by simpa [hp] using hes)).cons ((hy c T).trans (by simp [advance, hp]))
    | none =>
      cases T with
      | cons d T => exact (hrest d d T (by simpa [hp] using hes)).cons ((hy c _).trans (by simp [advance, hp]))
      | nil =>
        obtain rfl : es = [] := by simpa [hp] using hes
        obtain ⟨it, hit, hL⟩ := hlast y rfl c
        exact hL.cons ((hy c []).trans (by simp [advance, hp, hit]))

end Position
open Position

/-! ## Local configurations -/

namespace EventIterator

def root (e : Event D) : Option (Position D) :=
  if e.kind = .threadInit then
    (e.predecessors.head?.filter (·.kind = .programInit)).map fun root => ⟨some [], some root⟩
  else none

variable (lc : Event D) (withRoot : Bool)

def start (withEvent : Bool) : Option (Position D) :=
  if withEvent then some ⟨none, some lc⟩
  else match lc.cone.values.reverse with
    | c :: cs => some ⟨some (c :: cs), some c⟩
    | [] => if withRoot then root lc else some finish

def next (it : Position D) : Option (Position D) :=
  match it.event with
  | none => some it
  | some e =>
    if lc.cone.entries.isEmpty ∨ it.thread = some [] then
      if e = lc ∧ withRoot then root lc else some finish
    else if e = lc then some ⟨some lc.cone.values.reverse, lc.cone.values.getLast?⟩
    else it.advance e (if withRoot then root e else some finish)

/-- The flag for the root is dropped when `lc` is the root. -/
def enumerate (withEvent : Bool) (fuel : ℕ) : Option (List (Event D)) := do
  let withRoot := withRoot && lc.kind ≠ .programInit
  collect (next lc withRoot) fuel (← start lc withRoot withEvent)

end EventIterator

section
variable {e : Event D} (h : e.Rooted)
include h

lemma Event.Rooted.yields_coneChains (hk : e.kind ≠ .programInit) (hne : e ≠ mainInit) (withRoot : Bool)
    {c : Event D} {cs : List (Event D)} (hcs : e.cone.values.reverse = c :: cs) :
    Yields (EventIterator.next e withRoot) ⟨some (c :: cs), some c⟩
      (e.coneChains ++ if withRoot then [programInit] else []) := by
  have hcone : e.cone.entries ≠ [] := fun hnil => by simp [values, hnil] at hcs
  refine yields_chains (fun _ y => if withRoot then EventIterator.root y else some finish) (fun y hy c T => ?_)
    (fun y hy _ => ?_) (by rw [coneChains, hcs, flatMap_cons])
  · simp [EventIterator.next, hcone, (h.mem_chains_iff.mp hy).1.ne]
  · obtain rfl : mainInit = y := Option.some.inj ((h.getLast?_coneChains hk hne).symm.trans hy)
    cases withRoot with
    | false => exact ⟨_, rfl, yields_finish⟩
    | true => exact ⟨_, rfl, yields_finish.cons (by simp [EventIterator.next, (h.programInit_lt hk).ne])⟩

lemma Event.Rooted.enumerate_eq (withRoot withEvent : Bool) : EventIterator.enumerate e withRoot withEvent
    ((e.visited withRoot withEvent).length + 1) = some (e.visited withRoot withEvent) := by
  by_cases hk : e.kind = .programInit
  · obtain rfl := eq_programInit h.valid.checks hk
    cases withRoot <;> cases withEvent <;> rfl
  by_cases hne : e = mainInit
  · subst hne
    cases withRoot <;> cases withEvent <;> rfl
  obtain ⟨c, cs, hcs⟩ := exists_cons_of_ne_nil (l := e.cone.values.reverse) fun hnil => by
    have hlast := h.getLast?_coneChains hk hne
    simp [coneChains, hnil] at hlast
  have hcone : e.cone.entries ≠ [] := fun hnil => by simp [values, hnil] at hcs
  have hyields := h.yields_coneChains hk hne withRoot hcs
  simp only [EventIterator.enumerate, EventIterator.start, visited, hk, hcs, ne_eq, not_false_eq_true, decide_true,
    Bool.and_true, and_true]
  cases withEvent with
  | false => exact hyields
  | true =>
    show Yields _ ⟨none, some e⟩ (e :: _)
    refine hyields.cons ?_
    have hlast : e.cone.values.getLast? = some c := by rw [← head?_reverse, hcs, head?_cons]
    simp [EventIterator.next, hcone, hcs, hlast]

end

/-! ## Configurations -/

namespace ConfigurationIterator

def start (C : Configuration D) : Position D :=
  match C.threadHeads.values.reverse with
  | c :: cs => ⟨some (c :: cs), some c⟩
  | [] => finish

def next (it : Position D) : Option (Position D) :=
  match it.event with
  | none => some it
  | some e => it.advance e (some (if e = programInit then finish else { it with event := some programInit }))

def enumerate (C : Configuration D) (fuel : ℕ) : Option (List (Event D)) := collect next fuel (start C)

end ConfigurationIterator

namespace Configuration
variable {C : Configuration D}

lemma Reachable.length_events {P : Configuration D → Op D → Prop} (hC : Reachable P C) :
    C.events.Nodup ∧ C.events.length = C.size := by
  induction hC with
  | initial => exact ⟨(by simp [mainInit, programInit] : [mainInit, programInit].Nodup), rfl⟩
  | @commit C op e hC hop he ih =>
    obtain ⟨h, -⟩ := extend_iff.mp he
    have hperm := events_commit_perm h.threadPredecessor_eq
    have hsize : (C.commit e).size = C.size + 1 := by
      unfold Configuration.commit
      cases e.kind <;> dsimp only <;> (try split_ifs) <;> rfl
    rw [hperm.nodup_iff, hperm.length_eq, hsize, length_cons, ih.2]
    exact ⟨nodup_cons.mpr ⟨h.not_mem hC.wellFormed, ih.1⟩, rfl⟩

lemma Reachable.enumerate_eq {P : Configuration D → Op D → Prop} (hC : Reachable P C) :
    ConfigurationIterator.enumerate C (C.events.length + 1) = some C.events := by
  obtain ⟨h, hh, -⟩ := hC.wellFormed.le_lastOfTid hC.mainInit_mem (by simp [mainInit])
  obtain ⟨c, cs, hcs⟩ := exists_cons_of_ne_nil (ne_nil_of_mem (mem_reverse.mpr (mem_values_iff.mpr ⟨_, hh⟩)))
  have hroot := fun x hx => (nodup_append.mp hC.length_events.1).2.2 x hx programInit (mem_singleton.mpr rfl)
  rw [ConfigurationIterator.enumerate, ConfigurationIterator.start, events, hcs] at *
  refine yields_chains (fun c y => some (if y = programInit then finish else ⟨some [c], some programInit⟩))
    (fun y _ c T => ?_) (fun y hy c => ⟨_, rfl, ?_⟩) flatMap_cons
  · cases hp : y.threadPredecessor <;> cases T <;> simp [ConfigurationIterator.next, advance, hp]
  · rw [if_neg (hroot y (mem_of_getLast? hy))]
    exact yields_finish.cons rfl

theorem Reachable.iteration_exact (hC : Reachable startsThread C) :
    (∀ e ∈ C, ∀ withRoot withEvent, ∃ es, EventIterator.enumerate e withRoot withEvent (es.length + 1) = some es ∧
      es.Nodup ∧ ∀ x, x ∈ es ↔ withEvent ∧ x = e ∨ x < e ∧ (withRoot ∨ x.kind ≠ .programInit)) ∧
    ∃ es, ConfigurationIterator.enumerate C (es.length + 1) = some es ∧
      es.Nodup ∧ (∀ x, x ∈ es ↔ x ∈ C) ∧ es.length = C.size :=
  ⟨fun e he r v => ⟨e.visited r v, (hC.rooted he).enumerate_eq r v, (hC.rooted he).nodup_visited r v, fun _ =>
    (hC.rooted he).mem_visited_iff r v⟩, C.events, hC.enumerate_eq, hC.length_events.1, fun _ => Iff.rfl,
    hC.length_events.2⟩

theorem Reachable.iteration_exact_forked : ∃ es, ConfigurationIterator.enumerate forked (es.length + 1) = some es ∧
    es.Nodup ∧ (∀ x, x ∈ es ↔ x ∈ forked) ∧ es.length = forked.size :=
  (Reachable.iteration_exact reachable_forked).2

end Configuration
end Por
