import PorSe.Pseudoalloc.SlotRuns
import PorSe.Pseudoalloc.FreeRanges

/-! The delay of the quarantine, for the bins and the large object heap alike: what is freed comes back after as many
further frees as the quarantine has places. -/

namespace Pseudoalloc
open List Quarantine

/-! ## How long a value waits -/

namespace Quarantine
variable {T : Type} [Inhabited T] [DecidableEq T] {q : Quarantine T} {quarantined : List T} {x y : T} {n : ℕ}

/-- The value comes out of the ring after `n` more calls, or never. -/
def Waits (q : Quarantine T) (quarantined : List T) (x : T) (n : ℕ) : Prop :=
  x ∈ quarantined ∧ (q.capacity = unlimited ∨ q.pending[n]? = some x)

omit [DecidableEq T] in
lemma deallocate_capacity (q : Quarantine T) (y : T) : (q.deallocate y).2.capacity = q.capacity := by
  rw [deallocate]
  split_ifs <;> rfl

lemma mem_after (hnodup : (y :: quarantined).Nodup) (hx : x ∈ y :: quarantined) {released : T} (hne : x ≠ released) :
    x ∈ after quarantined y released := by
  rw [after]
  split_ifs
  · exact hx
  · exact hnodup.mem_erase_iff.mpr ⟨hne, hx⟩

lemma waits_deallocate (h : q.Valid) (hheld : q.held.Subperm quarantined) (hzero : q.capacity ≠ 0)
    (hnodup : (x :: quarantined).Nodup) (hx : x ≠ default) :
    (q.deallocate x).2.Waits (after quarantined x (q.deallocate x).1) x (q.capacity - 1) := by
  have hne : x ≠ (q.deallocate x).1 := by
    intro heq
    by_cases hunlimited : q.capacity = unlimited
    · rw [deallocate, if_neg hzero, if_pos hunlimited] at heq
      exact hx heq
    · obtain ⟨_, hpending, -⟩ := deallocate_pending h hzero hunlimited x
      have hmem : x ∈ q.held := q.pending_perm.mem_iff.mp (by simp [hpending, ← heq, hx])
      exact (nodup_cons.mp hnodup).1 (hheld.subset hmem)
  refine ⟨mem_after hnodup mem_cons_self hne, or_iff_not_imp_left.mpr fun hunlimited => ?_⟩
  rw [deallocate_capacity] at hunlimited
  obtain ⟨_, hpending, hpending'⟩ := deallocate_pending h hzero hunlimited x
  have hlength := length_pending h
  rw [hpending, length_cons] at hlength
  rw [hpending', ← hlength, Nat.add_sub_cancel, getElem?_concat_length]

lemma Waits.deallocate (hw : q.Waits quarantined x (n + 1)) (h : q.Valid) (hheld : q.held.Subperm quarantined)
    (hzero : q.capacity ≠ 0) (hnodup : (y :: quarantined).Nodup) (hx : x ≠ default) :
    (q.deallocate y).2.Waits (after quarantined y (q.deallocate y).1) x n := by
  obtain ⟨hmem, hw⟩ := hw
  by_cases hunlimited : q.capacity = unlimited
  · refine ⟨mem_after hnodup (mem_cons_of_mem y hmem) ?_, .inl ((deallocate_capacity q y).trans hunlimited)⟩
    rwa [Quarantine.deallocate, if_neg hzero, if_pos hunlimited]
  · obtain ⟨rest, hpending, hpending'⟩ := deallocate_pending h hzero hunlimited y
    have hrest : rest[n]? = some x := by simpa [hpending] using hw.resolve_left hunlimited
    refine ⟨mem_after hnodup (mem_cons_of_mem y hmem) fun heq => ?_, .inr ?_⟩
    · obtain ⟨_, hperm, hsub⟩ := hheld
      have hdup : ((q.deallocate y).1 :: rest).filter (fun x => decide (x ≠ default)) |>.Nodup :=
        hpending ▸ q.pending_perm.nodup_iff.mpr (hperm.nodup_iff.mp ((nodup_cons.mp hnodup).2.sublist hsub))
      rw [← heq, filter_cons, if_pos (by simpa using hx), nodup_cons] at hdup
      exact hdup.1 (mem_filter.mpr ⟨mem_of_getElem? hrest, by simpa using hx⟩)
    · rw [hpending', getElem?_append_left (List.getElem?_eq_some_iff.mp hrest).1]
      exact hrest

omit [DecidableEq T] in
lemma Waits.released (hw : q.Waits quarantined x 0) (h : q.Valid) (hzero : q.capacity ≠ 0)
    (hunlimited : q.capacity ≠ unlimited) (y : T) : (q.deallocate y).1 = x := by
  obtain ⟨_, hpending, -⟩ := deallocate_pending h hzero hunlimited y
  simpa [hpending] using hw.2.resolve_left hunlimited

end Quarantine

/-! ## Heaps with a quarantine -/

/-- `Free` says that a place can be handed out, `Apart` that two places have no byte in common. -/
structure QuarantinedHeap (σ T : Type) where
  quarantine : σ → Quarantine T
  Allocates : σ → T → σ → Prop
  deallocate : σ → T → Option σ
  Free : σ → T → Prop
  Apart : T → T → Prop

namespace QuarantinedHeap
variable {σ T : Type} [Inhabited T] [DecidableEq T] {M : QuarantinedHeap σ T} {H H' : σ} {live : List T} {x : T} {n : ℕ}

/-- Operations from a state on, with the number of frees; only what is live is freed. -/
inductive Steps (M : QuarantinedHeap σ T) (H0 : σ) (live₀ : List T) : ℕ → σ → List T → Prop
  | refl : Steps M H0 live₀ 0 H0 live₀
  | allocate {n : ℕ} {H H' : σ} {live : List T} {x : T} (h : Steps M H0 live₀ n H live) (hx : M.Allocates H x H') :
      Steps M H0 live₀ n H' (x :: live)
  | deallocate {n : ℕ} {H H' : σ} {live : List T} {x : T} (h : Steps M H0 live₀ n H live) (hx : x ∈ live)
      (hH : M.deallocate H x = some H') : Steps M H0 live₀ (n + 1) H' (live.erase x)

/-- What is freed is out of reach until exactly `capacity` further frees, and free from then on. -/
def DelaysReuse (M : QuarantinedHeap σ T) (capacity : ℕ) (initial : σ) : Prop :=
  ∀ m H live x, M.Steps initial [] m H live → x ∈ live → ∃ H1, M.deallocate H x = some H1 ∧
    (capacity = 0 → M.Free H1 x) ∧ ∀ n H2 live₂, M.Steps H1 (live.erase x) n H2 live₂ →
      (capacity = unlimited ∨ n < capacity → ¬ M.Free H2 x ∧ ∀ y H3, M.Allocates H2 y H3 → M.Apart x y) ∧
      (capacity ≠ unlimited → n + 1 = capacity → ∀ y ∈ live₂, ∃ H3, M.deallocate H2 y = some H3 ∧ M.Free H3 x)

/-- An invariant that ties the heap to the live places and those in the quarantine. -/
structure Keeps (M : QuarantinedHeap σ T) (Inv : σ → List T → List T → Prop) : Prop where
  valid {H live quarantined} : Inv H live quarantined → (M.quarantine H).Valid
  held {H live quarantined} : Inv H live quarantined → (M.quarantine H).held.Subperm quarantined
  nodup {H live quarantined} : Inv H live quarantined → (live ++ quarantined).Nodup
  ne_default {H live quarantined} : Inv H live quarantined → ∀ x ∈ live, x ≠ default
  taken {H live quarantined} : Inv H live quarantined → ∀ x ∈ quarantined, ¬ M.Free H x
  allocate {H live quarantined x H'} : Inv H live quarantined → M.Allocates H x H' →
    Inv H' (x :: live) quarantined ∧ M.quarantine H' = M.quarantine H ∧ ∀ y ∈ quarantined, M.Apart y x
  deallocate {H live quarantined x} : Inv H live quarantined → x ∈ live → ∃ H', M.deallocate H x = some H' ∧
    Inv H' (live.erase x) (Quarantine.after quarantined x ((M.quarantine H).deallocate x).1) ∧
    M.quarantine H' = ((M.quarantine H).deallocate x).2 ∧
    (((M.quarantine H).deallocate x).1 ≠ default → M.Free H' ((M.quarantine H).deallocate x).1)

variable {Inv : σ → List T → List T → Prop} {quarantined : List T}

lemma Keeps.nodup_quarantined (hM : M.Keeps Inv) (h : Inv H live quarantined) (hx : x ∈ live) :
    (x :: quarantined).Nodup :=
  nodup_cons.mpr ⟨fun hmem => disjoint_of_nodup_append (hM.nodup h) hx hmem, (nodup_append.mp (hM.nodup h)).2.1⟩

lemma Keeps.steps (hM : M.Keeps Inv) {H0 : σ} {live₀ : List T} (h0 : Inv H0 live₀ quarantined)
    (hsteps : M.Steps H0 live₀ n H live) : ∃ quarantined', Inv H live quarantined' ∧
      (M.quarantine H).capacity = (M.quarantine H0).capacity ∧ ((M.quarantine H0).capacity ≠ 0 → x ≠ default →
        (M.quarantine H0).Waits quarantined x ((M.quarantine H0).capacity - 1) →
        ((M.quarantine H0).capacity = unlimited ∨ n < (M.quarantine H0).capacity) →
        (M.quarantine H).Waits quarantined' x ((M.quarantine H0).capacity - 1 - n)) := by
  induction hsteps with
  | refl => exact ⟨quarantined, h0, rfl, fun _ _ hw _ => hw⟩
  | allocate _ hx ih =>
    obtain ⟨quarantined', h, hcapacity, hwaits⟩ := ih
    obtain ⟨h', hq, -⟩ := hM.allocate h hx
    exact ⟨quarantined', h', by rw [hq, hcapacity], fun hzero hx hw hn => hq ▸ hwaits hzero hx hw hn⟩
  | @deallocate n H H' live y _ hy hH ih =>
    obtain ⟨quarantined', h, hcapacity, hwaits⟩ := ih
    obtain ⟨H'', heq, h', hq, -⟩ := hM.deallocate h hy
    cases heq.symm.trans hH
    refine ⟨_, h', by rw [hq, deallocate_capacity, hcapacity], fun hzero hx hw hn => ?_⟩
    have hw' := hwaits hzero hx hw (hn.imp_right Nat.lt_of_succ_lt)
    rw [hq]
    refine Quarantine.Waits.deallocate ?_ (hM.valid h) (hM.held h) (hcapacity ▸ hzero) (hM.nodup_quarantined h hy) hx
    refine ⟨hw'.1, ?_⟩
    rcases hn with hunlimited | hn
    · exact .inl (hcapacity.trans hunlimited)
    · rw [show (M.quarantine H0).capacity - 1 - (n + 1) + 1 = (M.quarantine H0).capacity - 1 - n by omega]
      exact hw'.2

lemma Keeps.delaysReuse (hM : M.Keeps Inv) (hinit : Inv H [] []) : M.DelaysReuse (M.quarantine H).capacity H := by
  intro m H1 _ x hsteps hx
  obtain ⟨_, h, hcapacity, -⟩ := hM.steps (x := x) hinit hsteps
  have hne := hM.ne_default h x hx
  obtain ⟨H2, heq, h2, hq, hfree⟩ := hM.deallocate h hx
  have hcapacity2 : (M.quarantine H2).capacity = (M.quarantine H).capacity := by
    rw [hq, deallocate_capacity, hcapacity]
  refine ⟨H2, heq, fun hzero => ?_, fun n H3 _ hsteps3 => ?_⟩
  · have hr : ((M.quarantine H1).deallocate x).1 = x := by rw [Quarantine.deallocate, if_pos (hcapacity.trans hzero)]
    rw [hr] at hfree
    exact hfree hne
  · obtain ⟨_, h3, hcapacity3, hwaits⟩ := hM.steps h2 hsteps3
    rw [hcapacity2] at hcapacity3 hwaits
    have hw := fun hzero : (M.quarantine H).capacity ≠ 0 => hwaits hzero hne <| by
      rw [hq, ← hcapacity]
      exact waits_deallocate (hM.valid h) (hM.held h) (hcapacity ▸ hzero) (hM.nodup_quarantined h hx) hne
    refine ⟨fun hn => ?_, fun hunlimited hn y hy => ?_⟩
    · have hzero : (M.quarantine H).capacity ≠ 0 := by
        rcases hn with hunlimited | hn
        · rw [hunlimited]
          decide
        · omega
      have hmem := (hw hzero hn).1
      exact ⟨hM.taken h3 x hmem, fun y H4 hy => (hM.allocate h3 hy).2.2 x hmem⟩
    · obtain ⟨H4, heq4, -, -, hfree4⟩ := hM.deallocate h3 hy
      have hw3 := hw (by omega) (.inr (by omega))
      rw [show (M.quarantine H).capacity - 1 - n = 0 by omega] at hw3
      rw [hw3.released (hM.valid h3) (by omega) (hcapacity3 ▸ hunlimited)] at hfree4
      exact ⟨H4, heq4, hfree4 hne⟩

end QuarantinedHeap

/-! ## The two kinds of heap -/

def bin (B : Bin) : QuarantinedHeap SizedHeap ℕ where
  quarantine := SizedHeap.quarantine
  Allocates H p H' := H.allocate B = some (p, H')
  deallocate H p := H.deallocate B p
  Free H p := ¬ Occupied H.bitmap (B.pos2index (p - B.base))
  Apart p q := p ≠ q

lemma keeps_bin (B : Bin) : (bin B).Keeps (SlotInvariant B) where
  valid h := h.valid
  held h := h.held
  nodup h := h.owns.nodup
  ne_default h p hp hzero := by
    obtain ⟨-, hslot⟩ := h.owns.isSlot p (mem_append_left _ hp)
    obtain ⟨-, -, -, _, -⟩ := hslot.exists_dvd
    have hzero : p = 0 := hzero
    omega
  taken h p hp hfree := hfree ((h.owns.occupied _).mpr ⟨p, mem_append_right _ hp, rfl⟩)
  allocate h hp := by
    obtain ⟨howns, hq⟩ := h.owns.allocate hp
    refine ⟨⟨howns, hq ▸ h.valid, hq ▸ h.held⟩, hq, ?_⟩
    rintro q hq rfl
    exact (nodup_cons.mp howns.nodup).1 (mem_append_right _ hq)
  deallocate h hp := h.deallocate hp

def largeObjects : QuarantinedHeap LargeObjectHeap (ℕ × ℕ) where
  quarantine := LargeObjectHeap.quarantine
  Allocates H b H' := Fits b.2 H.largest ∧ H.allocate b.2 = some (b.1, H')
  deallocate H b := H.deallocate b.1 b.2
  Free := LargeObjectHeap.Free
  Apart b c := b.1 + pages b.2 ≤ c.1 ∨ c.1 + pages c.2 ≤ b.1

lemma keeps_largeObjects {base size : ℕ} (hregion : base + size < 2 ^ 64) :
    largeObjects.Keeps (BlockInvariant base size) where
  valid h := h.valid
  held h := h.held
  nodup h := by
    obtain ⟨cells, htiled⟩ := h.tiled
    exact (nodup_cons.mp (htiled.blocks.nodup_iff.mp (Tiling.nodup_blocks htiled.nonempty))).2.of_map _
  ne_default h b hb hzero := by
    have hpos := (h.spans b (mem_append_left _ hb)).1
    rw [hzero] at hpos
    exact absurd hpos (lt_irrefl 0)
  taken h b hb := by
    rintro ⟨pos, len, hfind, _, hle'⟩
    obtain ⟨cells, htiled⟩ := h.tiled
    have hrange : (pos, len) ∈ Tiling.ranges base cells := htiled.ranges ▸ SortedMap.mem_entries_iff.mpr hfind
    have hblock : (b.1, pages b.2) ∈ Tiling.blocks base cells :=
      htiled.blocks.mem_iff.mpr (mem_cons_of_mem _ (mem_map.mpr ⟨b, mem_append_right _ hb, rfl⟩))
    have hpos := (h.spans b (mem_append_right _ hb)).2.1
    have hdisjoint := Tiling.disjoint hrange hblock
    rw [pages] at hle' hdisjoint
    omega
  allocate h hb := by
    obtain ⟨⟨pos, len, -, -, -, -, hapart⟩, h'⟩ := h.allocate hregion hb.1 hb.2
    obtain ⟨cells, htiled⟩ := h.tiled
    exact ⟨h', (htiled.allocate hregion hb.1 hb.2).2.1, fun c hc => hapart c (mem_append_right _ hc)⟩
  deallocate h hb := by
    rw [lawful_beq_subsingleton instBEqOfDecidableEq instBEqProd]
    exact h.deallocate hregion hb

/-- Both heaps delay the reuse of what is freed by exactly the size of the quarantine. -/
theorem quarantine_delays_reuse (B : Bin) (quarantineSize : ℕ) {base size : ℕ} (hregion : base + size < 2 ^ 64) :
    (bin B).DelaysReuse quarantineSize (.initial quarantineSize) ∧
      largeObjects.DelaysReuse quarantineSize (.initial base size quarantineSize) :=
  ⟨(keeps_bin B).delaysReuse SlotRun.start.invariant,
    (keeps_largeObjects hregion).delaysReuse (BlockRun.start.invariant hregion)⟩

theorem quarantine_delays_reuse_first : (∃ H, (bin smallBin).Steps (.initial 1) [] 0 H [4128]) ∧
      (∃ H, largeObjects.Steps (.initial 65536 40960 1) [] 0 H [(81920, 5000)]) ∧
      (bin smallBin).DelaysReuse 1 (.initial 1) ∧ largeObjects.DelaysReuse 1 (.initial 65536 40960 1) :=
  ⟨⟨_, .allocate .refl rfl⟩, ⟨_, .allocate .refl ⟨⟨by decide, by decide, by decide⟩, rfl⟩⟩,
    quarantine_delays_reuse smallBin 1 (by decide)⟩

/-- A request of five pages passes the assertion although the largest free range has four. -/
theorem quarantined_block_handed_out :
    ∃ H1 H2 H3 H₄, (LargeObjectHeap.initial 65536 36864 1).allocate 5000 = some (81920, H1) ∧
      H1.deallocate 81920 5000 = some H2 ∧ H2.quarantine.held = [(81920, 5000)] ∧
      H2.allocate 20480 = some (65536 + 2 ^ 63, H3) ∧ H3.allocate (2 ^ 63 - 32768) = some (81920, H₄) :=
  ⟨_, _, _, _, rfl, rfl, rfl, rfl, rfl⟩

end Pseudoalloc
