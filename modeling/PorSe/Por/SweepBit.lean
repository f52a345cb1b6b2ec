import PorSe.Por.Node

/-! Who has the sweep bit. The bit moves through the tree from left to right: what lies to its
left has been removed, and to its right every node with an event still has its left child. The
start of the main thread leaves the bit behind. -/

namespace Por
open Option
namespace Node
open TreePath
variable {D : Type}

/-- Exactly one node has the sweep bit, and it has no children. -/
def OneSweepLeaf (t : Tree D) : Prop :=
  ∃ p n, subtree t p = .node n .nil .nil ∧ n.isSweepNode = true ∧
    ∀ q m l r, subtree t q = .node m l r → m.isSweepNode = true → q = p

/-! ## The three kinds of trees -/

def Pending : Tree D → Prop
  | .nil => True
  | .node n l r => n.isSweepNode = false ∧ (n.hasEvent = true ↔ l ≠ .nil) ∧ (r ≠ .nil → n.hasEvent = true) ∧
    Pending l ∧ Pending r

def Sweeping : Tree D → Prop
  | .nil => False
  | .node n l r => n.isSweepNode = true ∧ n.hasEvent = false ∧ l = .nil ∧ r = .nil ∨
    n.isSweepNode = false ∧ n.hasEvent = true ∧ (Sweeping l ∧ Pending r ∨ l = .nil ∧ Sweeping r)

/-- No node that could hand on a bit has one. -/
def Lost : Tree D → Prop
  | .nil => True
  | .node n l r => (n.isSweepNode = true → n.hasEvent = true ∧ l ≠ .nil) ∧ Lost l ∧ Lost r

lemma sweeping_root [DecidableEq D] : Sweeping (root : Tree D) := .inl ⟨rfl, rfl, rfl, rfl⟩

variable {t l r t' : Tree D} {n : Node D} {events : List (Event D)}

lemma Pending.lost (h : Pending t) : Lost t := by
  induction t with
  | nil => trivial
  | node n l r ihl ihr =>
    obtain ⟨hn, -, -, hl, hr⟩ := h
    exact ⟨fun hn' => by simp [hn] at hn', ihl hl, ihr hr⟩

lemma Sweeping.ne_nil (h : Sweeping t) : t ≠ .nil := by
  rintro rfl
  exact h

lemma Pending.not_sweep (h : Pending t) {q : Path} {m : Node D} (hq : subtree t q = .node m l r) :
    m.isSweepNode = false := by
  induction t generalizing q with
  | nil => cases q <;> simp at hq
  | node n l' r' ihl ihr =>
    obtain ⟨hn, -, -, hl, hr⟩ := h
    match q, hq with
    | [], hq =>
      obtain ⟨rfl, -, -⟩ := BinaryTree.node.inj hq
      exact hn
    | .left :: q, hq => exact ihl hl hq
    | .right :: q, hq => exact ihr hr hq

lemma Sweeping.oneSweepLeaf (h : Sweeping t) : OneSweepLeaf t := by
  have hnil : ∀ {q : Path} {m : Node D} {l r : Tree D}, subtree (.nil : Tree D) q ≠ .node m l r := by
    intro q m l r hq
    cases q <;> simp at hq
  induction t with
  | nil => exact absurd h id
  | node n l r ihl ihr =>
    rcases h with ⟨hn, -, rfl, rfl⟩ | ⟨hn, -, ⟨hl, hr⟩ | ⟨rfl, hr⟩⟩
    · refine ⟨[], n, rfl, hn, fun q m l r hq _ => ?_⟩
      match q, hq with
      | [], _ => rfl
      | .left :: q, hq | .right :: q, hq => exact absurd hq hnil
    · obtain ⟨p, a, hp, ha, huniq⟩ := ihl hl
      refine ⟨.left :: p, a, hp, ha, fun q m l' r' hq hm => ?_⟩
      match q, hq with
      | [], hq =>
        obtain ⟨rfl, -, -⟩ := BinaryTree.node.inj hq
        simp [hn] at hm
      | .left :: q, hq => rw [huniq q m l' r' hq hm]
      | .right :: q, hq => simp [hr.not_sweep hq] at hm
    · obtain ⟨p, a, hp, ha, huniq⟩ := ihr hr
      refine ⟨.right :: p, a, hp, ha, fun q m l' r' hq hm => ?_⟩
      match q, hq with
      | [], hq =>
        obtain ⟨rfl, -, -⟩ := BinaryTree.node.inj hq
        simp [hn] at hm
      | .left :: q, hq => exact absurd hq hnil
      | .right :: q, hq => rw [huniq q m l' r' hq hm]

lemma Lost.left_ne_nil (h : Lost t) {p : Path} (hp : subtree t p = .node n l r) (hn : n.isSweepNode = true) :
    l ≠ .nil := by
  induction t generalizing p with
  | nil => cases p <;> simp at hp
  | node m l' r' ihl ihr =>
    obtain ⟨hm, hl, hr⟩ := h
    match p, hp with
    | [], hp =>
      obtain ⟨rfl, rfl, -⟩ := BinaryTree.node.inj hp
      exact (hm hn).2
    | .left :: p, hp => exact ihl hl hp
    | .right :: p, hp => exact ihr hr hp

lemma Lost.not_oneSweepLeaf (h : Lost t) : ¬ OneSweepLeaf t := by
  rintro ⟨p, n, hp, hn, -⟩
  exact h.left_ne_nil hp hn rfl

/-! ## Adding children -/

structure Keeps (t t' : Tree D) : Prop where
  pending : Pending t → Pending t'
  sweeping : Sweeping t → Sweeping t'
  lost : Lost t → Lost t'
  ne_nil : t ≠ .nil ∧ t' ≠ .nil

lemma Keeps.left {l' : Tree D} (h : Keeps l l') : Keeps (.node n l r) (.node n l' r) where
  pending := fun ⟨hn, he, hr, hl, hr'⟩ => ⟨hn, by simpa [h.ne_nil] using he, hr, h.pending hl, hr'⟩
  sweeping := by
    rintro (⟨-, -, hl, -⟩ | ⟨hn, he, ⟨hl, hr⟩ | ⟨hl, -⟩⟩)
    · exact absurd hl h.ne_nil.1
    · exact .inr ⟨hn, he, .inl ⟨h.sweeping hl, hr⟩⟩
    · exact absurd hl h.ne_nil.1
  lost := fun ⟨hn, hl, hr⟩ => ⟨fun h' => ⟨(hn h').1, h.ne_nil.2⟩, h.lost hl, hr⟩
  ne_nil := ⟨nofun, nofun⟩

lemma Keeps.right {r' : Tree D} (h : Keeps r r') : Keeps (.node n l r) (.node n l r') where
  pending := fun ⟨hn, he, hr, hl, hr'⟩ => ⟨hn, he, fun _ => hr h.ne_nil.1, hl, h.pending hr'⟩
  sweeping := by
    rintro (⟨-, -, -, hr⟩ | ⟨hn, he, ⟨hl, hr⟩ | ⟨hl, hr⟩⟩)
    · exact absurd hr h.ne_nil.1
    · exact .inr ⟨hn, he, .inl ⟨hl, h.pending hr⟩⟩
    · exact .inr ⟨hn, he, .inr ⟨hl, h.sweeping hr⟩⟩
  lost := fun ⟨hn, hl, hr⟩ => ⟨hn, hl, h.lost hr⟩
  ne_nil := ⟨nofun, nofun⟩

lemma Keeps.trans {t'' : Tree D} (h : Keeps t t') (h' : Keeps t' t'') : Keeps t t'' where
  pending := h'.pending ∘ h.pending
  sweeping := h'.sweeping ∘ h.sweeping
  lost := h'.lost ∘ h.lost
  ne_nil := ⟨h.ne_nil.1, h'.ne_nil.2⟩

lemma Keeps.updateAt {f : Tree D → Option (Tree D)} (hf : ∀ t t', f t = some t' → Keeps t t') {p : Path}
    (h : updateAt f p t = some t') : Keeps t t' :=
  updateAt_induction (hf _) (fun _ _ _ _ => Keeps.left) (fun _ _ _ _ => Keeps.right) h

lemma keeps_withLeftChild {child : Node D} (event : Event D) (hn : n.hasEvent = false)
    (hc : child.hasEvent = false) : Keeps (.node n .nil r) (n.withLeftChild event child r) where
  pending := by
    rintro ⟨hs, -, hr, -, hr'⟩
    refine ⟨rfl, by simp [hasEvent], fun _ => rfl, ?_, hr'⟩
    exact ⟨hs, by simp at hc ⊢; exact hc, by simp, trivial, trivial⟩
  sweeping := by
    rintro (⟨hs, -, -, rfl⟩ | ⟨-, he, -⟩)
    · exact .inr ⟨rfl, rfl, .inl ⟨.inl ⟨hs, hc, rfl, rfl⟩, trivial⟩⟩
    · simp [hn] at he
  lost := by
    rintro ⟨hs, -, hr⟩
    have hbit : n.isSweepNode = false := by
      by_contra h
      simp at hs
      exact h hs
    exact ⟨by simp, ⟨by simp [hbit], trivial, trivial⟩, hr⟩
  ne_nil := ⟨nofun, nofun⟩

lemma keeps_makeLeftChildOf {event : Event D} (t t' : Tree D) (h : makeLeftChildOf event t = some t') : Keeps t t' := by
  unfold makeLeftChildOf at h
  split at h
  · split_ifs at h with hn
    cases h
    exact keeps_withLeftChild event (by simpa using hn) rfl
  · simp at h

lemma keeps_makeRightChild (t t' : Tree D) (h : makeRightChild t = some t') : Keeps t t' := by
  unfold makeRightChild at h
  split at h
  · next n l =>
    obtain ⟨_, hevent, h⟩ := bind_eq_some_iff.mp h
    cases h
    have hn : n.hasEvent = true := by simp [hasEvent, hevent]
    have hchild : ∀ C E s, Pending (.node ⟨none, C, E, s, false⟩ .nil .nil : Tree D) := fun _ _ _ =>
      ⟨rfl, by simp [hasEvent], by simp, trivial, trivial⟩
    refine ⟨?_, ?_, ?_, nofun, nofun⟩
    · rintro ⟨hs, he, -, hl, -⟩
      exact ⟨hs, he, fun _ => hn, hl, hchild _ _ _⟩
    · rintro (⟨-, he, -⟩ | ⟨hs, he, ⟨hl, -⟩ | ⟨-, hr⟩⟩)
      · simp [hn] at he
      · exact .inr ⟨hs, he, .inl ⟨hl, hchild _ _ _⟩⟩
      · exact absurd hr id
    · rintro ⟨hs, hl, -⟩
      exact ⟨hs, hl, (hchild _ _ _).lost⟩
  · simp at h

lemma keeps_makeLeftChildren (t t' : Tree D) (h : makeLeftChildren events t = some t') (ht : t ≠ .nil) :
    Keeps t t' := by
  induction events generalizing t t' with
  | nil =>
    cases h
    exact ⟨id, id, id, ht, ht⟩
  | cons _ events ih =>
    obtain ⟨t1, h1, h⟩ := bind_eq_some_iff.mp h
    have hkeeps := keeps_makeLeftChildOf t t1 h1
    unfold makeLeftChildOf at h1
    split at h1
    · split_ifs at h1
      cases h1
      obtain ⟨l, hl, rfl⟩ := map_eq_some_iff.mp h
      exact hkeeps.trans (ih _ l hl nofun).left
    · simp at h1

lemma keeps_addRightBranch (t t' : Tree D) (h : addRightBranch events t = some t') : Keeps t t' := by
  obtain ⟨t1, h1, h⟩ := bind_eq_some_iff.mp h
  have hkeeps := keeps_makeRightChild t t1 h1
  unfold makeRightChild at h1
  split at h1
  · obtain ⟨event, -, h1⟩ := bind_eq_some_iff.mp h1
    cases h1
    obtain ⟨r, hr, rfl⟩ := map_eq_some_iff.mp h
    exact hkeeps.trans (keeps_makeLeftChildren _ r hr nofun).right
  · simp at h1

section
variable [DecidableEq D]

variable {event : Event D} {standby : Bool} {p : Path} {ops : List (Op D × Path)}

lemma keeps_makeLeftChild (t t' : Tree D) (h : makeLeftChild event standby t = some t') : Keeps t t' := by
  unfold makeLeftChild at h
  split at h
  · obtain ⟨C, -, h⟩ := bind_eq_some_iff.mp h
    split_ifs at h with hn
    cases h
    exact keeps_withLeftChild event (by simpa using hn) rfl
  · simp at h

lemma keeps_makeRightLocalChild (t t' : Tree D) (h : makeRightLocalChild event standby t = some t') : Keeps t t' := by
  unfold makeRightLocalChild at h
  split at h
  · simp at h
  · split_ifs at h
    obtain ⟨t1, h1, h⟩ := bind_eq_some_iff.mp h
    exact (keeps_makeRightChild _ t1 h1).trans (Keeps.updateAt keeps_makeLeftChild h)

lemma keeps_catchUp {copy : Configuration D} (t t' : Tree D) (h : catchUp event copy standby t = some t') :
    Keeps t t' := by
  induction t generalizing t' with
  | nil => simp [catchUp] at h
  | node n l r _ ihr =>
    unfold catchUp at h
    split_ifs at h with he hn
    · split at h
      · simp at h
      · next m l' r' =>
        split_ifs at h
        cases h
        exact Keeps.left ⟨id, id, id, nofun, nofun⟩
    · obtain ⟨r', hr, rfl⟩ := map_eq_some_iff.mp h
      exact (ihr r' hr).right

/-- The start of the main thread leaves the bit with a node that has a child afterwards. -/
structure Drops (t t' : Tree D) : Prop where
  not_lost : ¬ Lost t
  lost : Sweeping t → Lost t'
  ne_nil : t' ≠ .nil

section
omit [DecidableEq D]

lemma Drops.left {l' : Tree D} (h : Drops l l') : Drops (.node n l r) (.node n l' r) where
  not_lost := fun ⟨_, hl, _⟩ => h.not_lost hl
  lost := by
    rintro (⟨-, -, rfl, -⟩ | ⟨hn, -, ⟨hl, hr⟩ | ⟨rfl, -⟩⟩)
    · exact absurd trivial h.not_lost
    · exact ⟨by simp [hn], h.lost hl, hr.lost⟩
    · exact absurd trivial h.not_lost
  ne_nil := nofun

lemma Drops.right {r' : Tree D} (h : Drops r r') : Drops (.node n l r) (.node n l r') where
  not_lost := fun ⟨_, _, hr⟩ => h.not_lost hr
  lost := by
    rintro (⟨-, -, -, rfl⟩ | ⟨hn, -, ⟨-, hr⟩ | ⟨rfl, hr⟩⟩)
    · exact absurd trivial h.not_lost
    · exact absurd hr.lost h.not_lost
    · exact ⟨by simp [hn], trivial, h.lost hr⟩
  ne_nil := nofun

lemma makeLeftChildInit_cases (h : makeLeftChildInit standby t = some t') :
    ∃ n r, t = .node n .nil r ∧ if n.isSweepNode then Drops t t' else Keeps t t' := by
  unfold makeLeftChildInit at h
  split at h
  · next n r =>
    obtain ⟨C, -, h⟩ := bind_eq_some_iff.mp h
    obtain ⟨event, -, h⟩ := bind_eq_some_iff.mp h
    split_ifs at h with hn
    cases h
    refine ⟨n, r, rfl, ?_⟩
    split_ifs with hs
    · refine ⟨fun ⟨hbit, _⟩ => (hbit hs).2 rfl, ?_, nofun⟩
      rintro (⟨-, -, -, rfl⟩ | ⟨hs', -⟩)
      · exact ⟨fun _ => ⟨rfl, nofun⟩, ⟨by simp [allocateLeftChild], trivial, trivial⟩, trivial⟩
      · simp [hs] at hs'
    · have hs : n.isSweepNode = false := by simpa using hs
      have hkeeps : Keeps (.node n .nil r) (n.withLeftChild event { n.allocateLeftChild with standby } r) :=
        keeps_withLeftChild event hn.1 rfl
      simpa only [withLeftChild, allocateLeftChild, hs] using hkeeps
  · simp at h

end

/-! ## Removing nodes -/

omit [DecidableEq D] in
lemma Pending.sweeping_updateLeftmost (h : Pending t) (ht : t ≠ .nil) :
    Sweeping (updateLeftmost (fun n => { n with isSweepNode := true }) t) := by
  fun_induction updateLeftmost (fun n : Node D => { n with isSweepNode := true }) t with
  | case1 => exact absurd rfl ht
  | case2 n r =>
    obtain ⟨-, he, hr, -, -⟩ := h
    have hn : n.hasEvent = false := by simpa using he
    have hr : r = .nil := by
      by_contra hne
      simp [hn] at hr
      exact hne hr
    exact .inl ⟨rfl, hn, rfl, hr⟩
  | case3 n m l r' r ih =>
    obtain ⟨hs, he, -, hl, hr⟩ := h
    exact .inr ⟨hs, he.mpr nofun, .inl ⟨ih hl nofun, hr⟩⟩

omit [DecidableEq D] in
/-- The leaf with the bit can be removed; the next leaf, if any is left, gets the bit. -/
lemma Sweeping.removeUp (h : Sweeping t) (hp : subtree t p = .node n .nil .nil) (hn : n.isSweepNode = true) :
    OnlyLeaf t p ∧ removeUp p t = some .nil ∨ ¬ OnlyLeaf t p ∧ ∃ t', Sweeping t' ∧ removeUp p t = some t' := by
  induction t generalizing p with
  | nil => exact absurd h id
  | node a l r ihl ihr =>
    rcases p with - | ⟨_ | _, p⟩
    · obtain ⟨rfl, rfl, rfl⟩ := BinaryTree.node.inj hp
      exact .inl ⟨onlyLeaf_leaf, rfl⟩
    · rcases h with ⟨-, -, rfl, -⟩ | ⟨hs, he, ⟨hl, hr⟩ | ⟨rfl, -⟩⟩
      · simp [subtree] at hp
      · rw [onlyLeaf_left hl.ne_nil]
        rcases ihl hl hp with ⟨honly, hremove⟩ | ⟨honly, l', hl', hremove⟩
        · cases r with
          | nil => exact .inl ⟨⟨honly, rfl⟩, by simp [Node.removeUp, hremove]⟩
          | node b r1 r2 =>
            have hmarked := hr.sweeping_updateLeftmost (by simp)
            refine .inr ⟨by simp, .node a .nil _, .inr ⟨hs, he, .inr ⟨rfl, hmarked⟩⟩, ?_⟩
            simp [Node.removeUp, hremove, hs]
        · refine .inr ⟨fun h => honly h.1, .node a l' r, .inr ⟨hs, he, .inl ⟨hl', hr⟩⟩, ?_⟩
          cases l' with
          | nil => exact absurd hl' id
          | node b l1 l2 => cases r <;> simp [Node.removeUp, hremove]
      · simp [subtree] at hp
    · rcases h with ⟨-, -, -, rfl⟩ | ⟨hs, he, ⟨-, hr⟩ | ⟨rfl, hr⟩⟩
      · simp [subtree] at hp
      · simp [hr.not_sweep hp] at hn
      · rw [onlyLeaf_right hr.ne_nil]
        rcases ihr hr hp with ⟨honly, hremove⟩ | ⟨honly, r', hr', hremove⟩
        · exact .inl ⟨honly, by simp [Node.removeUp, hremove]⟩
        · refine .inr ⟨honly, .node a .nil r', .inr ⟨hs, he, .inr ⟨rfl, hr'⟩⟩, ?_⟩
          cases r' with
          | nil => exact absurd hr' id
          | node b r1 r2 => simp [Node.removeUp, hremove]

omit [DecidableEq D] in
lemma Lost.backtrack_eq (h : Lost t) (hb : backtrack p t = some t') : t' = t := by
  unfold backtrack at hb
  split at hb
  · next n m _ _ hp =>
    have hn : n.isSweepNode = false := by
      by_contra hn
      exact h.left_ne_nil hp (by simpa using hn) rfl
    rw [hn] at hb
    exact (some.inj hb).symm
  · simp at hb

omit [DecidableEq D] in
lemma Sweeping.backtrack (h : Sweeping t) (hb : backtrack p t = some t') :
    ∃ n, subtree t p = .node n .nil .nil ∧ ((n.isSweepNode = true ∧ p ≠ [] ∧ OnlyLeaf t p) ∧ Lost t' ∨
      ¬ (n.isSweepNode = true ∧ p ≠ [] ∧ OnlyLeaf t p) ∧ Sweeping t') := by
  unfold Node.backtrack at hb
  split at hb
  · next n m l r hp =>
    refine ⟨n, hp, ?_⟩
    cases hn : n.isSweepNode with
    | false =>
      rw [hn] at hb
      cases hb
      exact .inr ⟨by simp, h⟩
    | true =>
      rw [hn, if_pos rfl] at hb
      rcases h.removeUp hp hn with ⟨honly, hremove⟩ | ⟨honly, s, hs, hremove⟩
      · obtain rfl : BinaryTree.node m .nil .nil = t' := by simpa [hremove] using hb
        cases p with
        | nil =>
          obtain ⟨rfl, rfl, rfl⟩ := BinaryTree.node.inj hp
          exact .inr ⟨by simp, h⟩
        | cons d p =>
          have hm : m.isSweepNode = false := by
            rcases h with ⟨-, -, rfl, rfl⟩ | ⟨hm, -⟩
            · cases d <;> simp [subtree] at hp
            · exact hm
          exact .inl ⟨⟨rfl, by simp, honly⟩, by simp [hm], trivial, trivial⟩
      · refine .inr ⟨fun hc => honly hc.2.2, ?_⟩
        cases s with
        | nil => exact absurd hs id
        | node b s1 s2 =>
          obtain rfl : BinaryTree.node b s1 s2 = t' := by simpa [hremove] using hb
          exact hs
  · simp at hb

/-! ## Runs -/

/-- The calls after which no node can hand on the bit. -/
def losesBit (op : Op D) (p : Path) (t : Tree D) : Prop :=
  match op, subtree t p with
  | .makeLeftChildInit _, .node n _ _ => n.isSweepNode = true
  | .backtrack, .node n _ _ => n.isSweepNode = true ∧ p ≠ [] ∧ OnlyLeaf t p
  | _, _ => False

lemma perform_cases {op : Op D} (h : perform op p t = some t') :
    (Lost t → Lost t') ∧ (Sweeping t → losesBit op p t ∧ Lost t' ∨ ¬ losesBit op p t ∧ Sweeping t') := by
  have hkeeps : Keeps t t' → ¬ losesBit op p t → (Lost t → Lost t') ∧
      (Sweeping t → losesBit op p t ∧ Lost t' ∨ ¬ losesBit op p t ∧ Sweeping t') :=
    fun hk hl => ⟨hk.lost, fun hs => .inr ⟨hl, hk.sweeping hs⟩⟩
  cases op with
  | makeLeftChild _ standby => exact hkeeps (Keeps.updateAt keeps_makeLeftChild h) id
  | makeLeftChildInit standby =>
    by_cases hl : losesBit (.makeLeftChildInit standby) p t
    · have hdrops : Drops t t' := by
        refine updateAt_induction (fun s hs => ?_) (fun _ _ _ _ => Drops.left) (fun _ _ _ _ => Drops.right) h
        obtain ⟨n, r, ht, hcases⟩ := makeLeftChildInit_cases hs
        simp only [losesBit, ht] at hl
        rwa [if_pos hl] at hcases
      exact ⟨fun hlost => absurd hlost hdrops.not_lost, fun hs => .inl ⟨hl, hdrops.lost hs⟩⟩
    · refine hkeeps (updateAt_induction (fun s hs => ?_) (fun _ _ _ _ => Keeps.left) (fun _ _ _ _ => Keeps.right) h) hl
      obtain ⟨n, r, ht, hcases⟩ := makeLeftChildInit_cases hs
      simp only [losesBit, ht] at hl
      rwa [if_neg hl] at hcases
  | makeRightLocalChild _ standby => exact hkeeps (Keeps.updateAt keeps_makeRightLocalChild h) id
  | addRightBranch _ => exact hkeeps (Keeps.updateAt keeps_addRightBranch h) id
  | catchUp _ _ standby => exact hkeeps (Keeps.updateAt keeps_catchUp h) id
  | backtrack =>
    refine ⟨fun hlost => hlost.backtrack_eq h ▸ hlost, fun hs => ?_⟩
    obtain ⟨n, hp, hcases⟩ := hs.backtrack h
    simpa only [losesBit, hp] using hcases

def performAll (ops : List (Op D × Path)) (t : Tree D) : Option (Tree D) :=
  ops.foldlM (fun t (op, p) => perform op p t) t

def HandsOn : List (Op D × Path) → Tree D → Prop
  | [], _ => True
  | (op, p) :: ops, t => ¬ losesBit op p t ∧ ∀ t' ∈ perform op p t, HandsOn ops t'

lemma Lost.performAll (h : Lost t) (ht : performAll ops t = some t') : Lost t' := by
  induction ops generalizing t with
  | nil => exact some.inj ht ▸ h
  | cons op ops ih =>
    obtain ⟨t1, h1, ht⟩ := bind_eq_some_iff.mp ht
    exact ih ((perform_cases h1).1 h) ht

lemma Sweeping.performAll (h : Sweeping t) (ht : performAll ops t = some t') :
    HandsOn ops t ∧ Sweeping t' ∨ ¬ HandsOn ops t ∧ Lost t' := by
  induction ops generalizing t with
  | nil => exact .inl ⟨trivial, some.inj ht ▸ h⟩
  | cons op ops ih =>
    obtain ⟨t1, h1, ht⟩ := bind_eq_some_iff.mp ht
    have hrest : HandsOn (op :: ops) t ↔ ¬ losesBit op.1 op.2 t ∧ HandsOn ops t1 := by
      simp [HandsOn, h1]
    rcases (perform_cases h1).2 h with ⟨hl, hlost⟩ | ⟨hl, hs⟩
    · exact .inr ⟨fun hc => (hrest.mp hc).1 hl, hlost.performAll ht⟩
    · rcases ih hs ht with ⟨hon, hs'⟩ | ⟨hon, hlost⟩
      · exact .inl ⟨hrest.mpr ⟨hl, hon⟩, hs'⟩
      · exact .inr ⟨fun hc => hon (hrest.mp hc).2, hlost⟩

/-- The bit is at one leaf exactly as long as every call has handed it on. -/
theorem oneSweepLeaf_iff_handsOn {ops : List (Op D × Path)} {t : Tree D} (h : performAll ops root = some t) :
    OneSweepLeaf t ↔ HandsOn ops root := by
  rcases sweeping_root.performAll h with ⟨hon, hs⟩ | ⟨hon, hlost⟩
  · exact iff_of_true hs.oneSweepLeaf hon
  · exact iff_of_false hlost.not_oneSweepLeaf hon

lemma lost_of_started (h : performAll ((.makeLeftChildInit standby, []) :: ops) root = some t) : Lost t := by
  rcases sweeping_root.performAll h with ⟨⟨hon, -⟩, -⟩ | ⟨-, hlost⟩
  · exact absurd rfl hon
  · exact hlost

end

section

def forkAndBacktrack : List (Op Bool × Path) :=
  [(.makeLeftChild ⟨.main, .localEvent [true], [⟨.main, .threadInit, [.programInit]⟩]⟩ false, []),
   (.makeRightLocalChild ⟨.main, .localEvent [false], [⟨.main, .threadInit, [.programInit]⟩]⟩ false, []),
   (.backtrack, [.left])]

theorem oneSweepLeaf_iff_handsOn_forkAndBacktrack :
    ∃ t, performAll forkAndBacktrack root = some t ∧ OneSweepLeaf t := by
  refine ⟨_, rfl, (oneSweepLeaf_iff_handsOn (rfl : performAll forkAndBacktrack root = _)).mpr ?_⟩
  refine ⟨id, fun t1 h1 => ⟨id, fun t2 h2 => ⟨?_, fun t3 h3 => trivial⟩⟩⟩
  cases h1
  cases h2
  rintro ⟨-, -, honly⟩
  exact absurd (honly [.right, .left] _ rfl) (by decide)

theorem bit_left_at_root : ∃ t, performAll [(.makeLeftChildInit false, [])] (root : Tree Unit) = some t ∧
    ¬ OneSweepLeaf t ∧ backtrack [.left] t = some t := by
  have h : performAll [(.makeLeftChildInit false, [])] (root : Tree Unit) = some _ := rfl
  exact ⟨_, h, (lost_of_started h).not_oneSweepLeaf, rfl⟩

end

end Node
end Por
