import PorSe.Fingerprint.PathConstraints

/-! Which constraints a fingerprint covers, and when their order in the vector does not
matter. -/

namespace Fingerprint
open List Keyed
variable {E A K : Type} [LinearOrder A] [Expression E A K]
open Expression ConstraintMaps

namespace MemoryFingerprint
variable {fp : MemoryFingerprint StringSet A} {es es' : List E} {arrSet arrSet' : List A} {e c : E} {a b : A} {k : K}

def Relevant (fp : MemoryFingerprint StringSet A) (es : List E) (e : E) : Prop :=
  e ∈ es ∧ ∃ b ∈ usedArrays e, fp.Connected es b

def PrintsAlike (fp : MemoryFingerprint StringSet A) (es : List E) : Prop :=
  ∀ a b, fp.Relevant es a → fp.Relevant es b → key a = key b → printSingleExpr a = printSingleExpr b

lemma connected_iff : fp.Connected es b ↔ b ∈ fp.referenced ∨ ∃ e, fp.Relevant es e ∧ b ∈ usedArrays e := by
  constructor
  · rintro ⟨a, ha, hab⟩
    cases hab with
    | refl => exact .inl ha
    | @tail c _ hac hcb =>
      obtain ⟨e, he, hc, hb⟩ := hcb
      exact .inr ⟨e, ⟨he, c, hc, a, ha, hac⟩, hb⟩
  · rintro (hb | ⟨e, ⟨he, c, hc, a, ha, hac⟩, hb⟩)
    · exact ⟨b, hb, .refl⟩
    · exact ⟨a, ha, hac.tail ⟨e, he, hc, hb⟩⟩

lemma relevant_of_connected (he : e ∈ es) (hb : b ∈ usedArrays e) (hconnected : fp.Connected es b) :
    fp.Relevant es e := ⟨he, b, hb, hconnected⟩

lemma connected_congr (h : ∀ e, fp.Relevant es e ↔ fp.Relevant es' e) : fp.Connected es b ↔ fp.Connected es' b := by
  simp [connected_iff, h]

lemma relevant_of_mem_iff (h : ∀ e, e ∈ es ↔ e ∈ es') (e : E) : fp.Relevant es e ↔ fp.Relevant es' e := by
  simp [Relevant, Connected, h, linked_congr h]

lemma relevant_append {ds : List E} (hds : ∀ d ∈ ds, ∀ b ∈ usedArrays d, ¬ fp.Connected (es ++ ds) b) (e : E) :
    fp.Relevant (es ++ ds) e ↔ fp.Relevant es e := by
  have hconnected : ∀ b, fp.Connected (es ++ ds) b ↔ fp.Connected es b := by
    refine fun b => ⟨?_, ?_⟩
    · rintro ⟨a, ha, hab⟩
      refine ⟨a, ha, ?_⟩
      induction hab with
      | refl => exact .refl
      | @tail c d hac hcd ih =>
        obtain ⟨e, he, hc, hd⟩ := hcd
        rcases mem_append.mp he with he | he
        · exact ih.tail ⟨e, he, hc, hd⟩
        · exact absurd ⟨a, ha, hac⟩ (hds e he c hc)
    · rintro ⟨a, ha, hab⟩
      refine ⟨a, ha, Relation.ReflTransGen.mono ?_ a b hab⟩
      rintro a b ⟨e, he, hab⟩
      exact ⟨e, mem_append_left ds he, hab⟩
  constructor
  · rintro ⟨he, b, hb, hconn⟩
    rcases mem_append.mp he with he | he
    · exact ⟨he, b, hb, (hconnected b).mp hconn⟩
    · exact absurd hconn (hds e he b hb)
  · rintro ⟨he, b, hb, hconn⟩
    exact ⟨mem_append_left ds he, b, hb, (hconnected b).mpr hconn⟩

/-! ## Texts by key -/

variable [LinearOrder K]

def keysAt (es : List E) (v : A) : List K := (constraintsOf (exprSort es) v).map key

def keyList (es : List E) (arrSet : List A) : List K := arrSet.flatMap (keysAt es)

def textAt (es : List E) (k : K) : String := ((Keyed.first? key es k).map printSingleExpr).getD ""

lemma mem_keysAt : k ∈ keysAt es a ↔ ∃ e ∈ es, a ∈ usedArrays e ∧ key e = k := by
  rw [keysAt, mem_map]
  constructor
  · rintro ⟨c, hc, rfl⟩
    obtain ⟨hc, ha⟩ := mem_constraintsOf.mp hc
    exact ⟨c, (sort_perm es).mem_iff.mp ((firsts_sublist _).subset hc), ha, rfl⟩
  · rintro ⟨e, he, ha, rfl⟩
    exact exists_mem_constraintsOf ((sort_perm es).mem_iff.mpr he) ha

lemma pairwise_keysAt (es : List E) (v : A) : (keysAt es v).Pairwise (· < ·) :=
  pairwise_map.mpr ((pairwise_firsts_sort es).filter _)

lemma keysAt_congr (h : ∀ e, fp.Relevant es e ↔ fp.Relevant es' e) (ha : fp.Connected es a) :
    keysAt es a = keysAt es' a := by
  have hmem : ∀ k, k ∈ keysAt es a ↔ k ∈ keysAt es' a := by
    intro k
    rw [mem_keysAt, mem_keysAt]
    constructor
    · rintro ⟨e, he, hae, rfl⟩
      exact ⟨e, ((h e).mp (relevant_of_connected he hae ha)).1, hae, rfl⟩
    · rintro ⟨e, he, hae, rfl⟩
      exact ⟨e, ((h e).mpr (relevant_of_connected he hae ((connected_congr h).mp ha))).1, hae, rfl⟩
  exact (pairwise_keysAt es a).eq_of_mem_iff (pairwise_keysAt es' a) hmem

lemma map_folded (es : List E) (arrSet : List A) :
    (folded es arrSet).map printSingleExpr = (keyList es arrSet).map (textAt es) := by
  rw [folded, keyList, map_flatMap, map_flatMap]
  refine flatMap_congr fun v _ => ?_
  rw [keysAt, map_map]
  refine map_congr_left fun c hc => ?_
  have hfirst : first? key es (key c) = some c := by
    rw [← first?_sort]
    exact first?_of_mem_firsts (mem_constraintsOf.mp hc).1
  rw [Function.comp_apply, textAt, hfirst, Option.map_some, Option.getD_some]

omit [LinearOrder A] [LinearOrder K] in
lemma sorted_unique (hnodup : arrSet.Nodup) (hnodup' : arrSet'.Nodup)
    (hsorted : arrSet.Pairwise fun a b => name E a ≤ name E b)
    (hsorted' : arrSet'.Pairwise fun a b => name E a ≤ name E b) (hmem : ∀ b, b ∈ arrSet ↔ b ∈ arrSet')
    (hnames : ∀ a ∈ arrSet, ∀ b ∈ arrSet, name E a = name E b → a = b) : arrSet = arrSet' := by
  refine ((perm_ext_iff_of_nodup hnodup hnodup').mpr hmem).eq_of_pairwise ?_ hsorted hsorted'
  intro a b ha hb hab hba
  exact hnames a ha b ((hmem b).mpr hb) (le_antisymm hab hba)

lemma relevant_first (he : fp.Relevant es e) :
    ∃ c, Keyed.first? key es (key e) = some c ∧ fp.Relevant es c ∧ key c = key e := by
  have hsome : (first? key es (key e)).isSome = true := first?_isSome_iff.mpr ⟨e, he.1, rfl⟩
  obtain ⟨c, hc⟩ := Option.isSome_iff_exists.mp hsome
  have hkey := key_of_first? hc
  obtain ⟨-, b, hb, hconn⟩ := he
  exact ⟨c, hc, ⟨mem_of_first? hc, b, (usedArrays_congr hkey b).mpr hb, hconn⟩, hkey⟩

lemma exists_relevant_of_mem_keyList (harrSet : ∀ b ∈ arrSet, fp.Connected es b) (hk : k ∈ keyList es arrSet) :
    ∃ e, fp.Relevant es e ∧ key e = k := by
  obtain ⟨v, hv, hk⟩ := mem_flatMap.mp hk
  obtain ⟨e, he, hve, rfl⟩ := mem_keysAt.mp hk
  exact ⟨e, relevant_of_connected he hve (harrSet v hv), rfl⟩

lemma keyList_congr (h : ∀ e, fp.Relevant es e ↔ fp.Relevant es' e) (harrSet : ∀ b ∈ arrSet, fp.Connected es b) :
    keyList es arrSet = keyList es' arrSet :=
  flatMap_congr fun v hv => keysAt_congr h (harrSet v hv)

lemma constraintText_congr (h : ∀ e, fp.Relevant es e ↔ fp.Relevant es' e) (hprints : fp.PrintsAlike es)
    (harrSet : ∀ b ∈ arrSet, fp.Connected es b) : fp.constraintText es arrSet = fp.constraintText es' arrSet := by
  rw [constraintText, constraintText, map_folded, map_folded, ← keyList_congr h harrSet]
  congr 1
  refine map_congr_left fun k hk => ?_
  obtain ⟨e, he, rfl⟩ := exists_relevant_of_mem_keyList harrSet hk
  obtain ⟨c, hc, hrelevant, hkey⟩ := relevant_first he
  obtain ⟨c', hc', hrelevant', hkey'⟩ := relevant_first ((h e).mp he)
  rw [textAt, textAt, hc, hc', Option.map_some, Option.map_some]
  exact hprints c c' hrelevant ((h c').mpr hrelevant') (hkey.trans hkey'.symm)

end MemoryFingerprint

/-! ## Texts that differ -/

lemma toList_appendTexts (s : String) (texts : List String) :
    (appendTexts s texts).toList = s.toList ++ texts.flatMap fun t => ' ' :: t.toList := by
  induction texts generalizing s with
  | nil => simp [appendTexts]
  | cons t texts ih =>
    have hcons : appendTexts s (t :: texts) = appendTexts (s ++ " " ++ t) texts := rfl
    rw [hcons, ih]
    simp

omit [LinearOrder A] [Expression E A K] in
lemma eq_of_appendTexts_eq [LinearOrder K] {s : String} {ks : List K} {t t' : K → String} {k : K} (hk : k ∈ ks)
    (hne : ∀ j, j ≠ k → t j = t' j) (h : appendTexts s (ks.map t) = appendTexts s (ks.map t')) : t k = t' k := by
  have hlist := congrArg String.toList h
  rw [toList_appendTexts, toList_appendTexts, append_cancel_left_eq, flatMap_map, flatMap_map] at hlist
  have hpieces := ListSearch.eq_of_flatMap_eq (fun j hj => by rw [hne j hj]) hk hlist
  exact String.toList_inj.mp (cons.inj hpieces).2

/-! ## The call -/

namespace MemoryFingerprint
variable {fp : MemoryFingerprint StringSet A} {es es' : List E} {value value' : StringSet} {a b : E}

def NamesDistinct (fp : MemoryFingerprint StringSet A) (es : List E) : Prop :=
  ∀ a b, fp.Connected es a → fp.Connected es b → name E a = name E b → a = b

variable [LinearOrder K]

/-- The order and number of the constraints and constraints over unconnected arrays do not matter. -/
def OrderIndependent (fp : MemoryFingerprint StringSet A) (es : List E) (value : StringSet) : Prop :=
  ∀ es' ds : List E, (∀ e, e ∈ es' ↔ e ∈ es) → (∀ d ∈ ds, ∀ b ∈ usedArrays d, ¬ fp.Connected (es' ++ ds) b) →
    ∃ fp' vector, fp.getFingerprint stringSet (es' ++ ds) = some (value, fp', vector)

omit [LinearOrder A] in
lemma textAt_cons_self (a : E) (es : List E) : textAt (a :: es) (key a) = printSingleExpr a := by
  rw [textAt, first?_cons, if_pos rfl]
  rfl

omit [LinearOrder A] in
lemma textAt_cons_of_ne {k : K} (hk : k ≠ key a) : textAt (a :: es) k = textAt es k := by
  rw [textAt, textAt, first?_cons, if_neg hk.symm]

/-- With the same relevant constraints, the values are equal if and only if the printed texts are. -/
lemma getFingerprint_congr (hpos : ∀ s ∈ fp.symbolicReferences.entries, 0 < s.2.toInt)
    (hvalue : fp.fingerprintValue.NoZero) (hne : fp.referenced ≠ []) (hnames : fp.NamesDistinct es)
    (hrelevant : ∀ e, fp.Relevant es e ↔ fp.Relevant es' e) :
    ∃ value value' arrSet, fp.getFingerprint stringSet es = some (value, fp.clear, exprSort es) ∧
      fp.getFingerprint stringSet es' = some (value', fp.clear, exprSort es') ∧ (∀ b, b ∈ arrSet ↔ fp.Connected es b) ∧
          (value = value' ↔ fp.constraintText es arrSet = fp.constraintText es' arrSet) := by
  obtain ⟨value, arrSet, hcall, hzero, hcount, hnodup, hsorted, hmem⟩ := getFingerprint_spec fp es hpos hvalue hne
  obtain ⟨value', arrSet', hcall', hzero', hcount', hnodup', hsorted', hmem'⟩ :=
    getFingerprint_spec fp es' hpos hvalue hne
  have hsame : ∀ b, b ∈ arrSet ↔ b ∈ arrSet' := by
    intro b
    rw [hmem, hmem', connected_congr hrelevant]
  have harrSet : arrSet = arrSet' := by
    apply sorted_unique hnodup hnodup' hsorted hsorted' hsame
    intro a ha b hb
    exact hnames a b ((hmem a).mp ha) ((hmem b).mp hb)
  subst harrSet
  refine ⟨value, value', arrSet, hcall, hcall', hmem, fun h => ?_, fun h => ?_⟩
  · have hsingle : (Pi.single (fp.constraintText es arrSet) 1 : String → Count) =
        Pi.single (fp.constraintText es' arrSet) 1 := by
      apply add_left_cancel
      rw [← hcount, ← hcount', h]
    by_contra htexts
    have hone := congrFun hsingle (fp.constraintText es arrSet)
    rw [Pi.single_eq_same, Pi.single_eq_of_ne htexts] at hone
    exact absurd hone (by decide)
  · exact hzero.ext hzero' (by rw [hcount, hcount', h])

lemma printsAlike_of_constraintText {arrSet : List A} (ha : fp.Relevant es a) (hkey : key a = key b)
    (hmem : ∀ v, v ∈ arrSet ↔ fp.Connected es v)
    (hcons : ∀ c, fp.Relevant (a :: es) c ↔ fp.Relevant es c) (hcons' : ∀ c, fp.Relevant (b :: es) c ↔ fp.Relevant es c)
    (h : fp.constraintText (a :: es) arrSet = fp.constraintText (b :: es) arrSet) :
    printSingleExpr a = printSingleExpr b := by
  have hkeys := keyList_congr (fun c => (hcons c).symm) (fun v hv => (hmem v).mp hv)
  have hkeys' := keyList_congr (fun c => (hcons' c).symm) (fun v hv => (hmem v).mp hv)
  rw [constraintText, constraintText, map_folded, map_folded, ← hkeys, ← hkeys'] at h
  have hk : key a ∈ keyList es arrSet := by
    obtain ⟨he, v, hv, hconnected⟩ := ha
    exact mem_flatMap.mpr ⟨v, (hmem v).mpr hconnected, mem_keysAt.mpr ⟨a, he, hv, rfl⟩⟩
  have htext := eq_of_appendTexts_eq hk (fun j hj => ?_) h
  · rwa [textAt_cons_self, hkey, textAt_cons_self] at htext
  · rw [textAt_cons_of_ne hj, textAt_cons_of_ne (hkey ▸ hj)]

/-- Order and number do not matter if and only if equal constraints are printed alike. -/
lemma orderIndependent_iff (hpos : ∀ s ∈ fp.symbolicReferences.entries, 0 < s.2.toInt)
    (hvalue : fp.fingerprintValue.NoZero) (hne : fp.referenced ≠ []) (hnames : fp.NamesDistinct es) {vector : List E}
    (hcall : fp.getFingerprint stringSet es = some (value, fp.clear, vector)) :
    fp.OrderIndependent es value ↔ fp.PrintsAlike es := by
  constructor
  · intro hindependent a b ha hb hkey
    have hfront : ∀ c, c ∈ es → ∀ e, e ∈ c :: es ↔ e ∈ es := by
      intro c hc e
      simp only [mem_cons, or_iff_right_iff_imp]
      rintro rfl
      exact hc
    have hcons : ∀ c, fp.Relevant (a :: es) c ↔ fp.Relevant es c := relevant_of_mem_iff (hfront a ha.1)
    have hcons' : ∀ c, fp.Relevant (b :: es) c ↔ fp.Relevant es c := relevant_of_mem_iff (hfront b hb.1)
    have hnames' : fp.NamesDistinct (a :: es) := by
      intro v w hv hw
      exact hnames v w ((connected_congr hcons).mp hv) ((connected_congr hcons).mp hw)
    obtain ⟨value1, value2, _, hcall1, hcall2, hmem, hiff⟩ :=
      getFingerprint_congr hpos hvalue hne hnames' fun c => (hcons c).trans (hcons' c).symm
    obtain ⟨_, _, h1⟩ := hindependent (a :: es) [] (hfront a ha.1) (by simp)
    obtain ⟨_, _, h2⟩ := hindependent (b :: es) [] (hfront b hb.1) (by simp)
    rw [append_nil, hcall1] at h1
    rw [append_nil, hcall2] at h2
    have hvalues : value1 = value2 := by
      rw [(Prod.mk.inj (Option.some.inj h1)).1, (Prod.mk.inj (Option.some.inj h2)).1]
    exact printsAlike_of_constraintText ha hkey (fun v => (hmem v).trans (connected_congr hcons)) hcons hcons'
      (hiff.mp hvalues)
  · intro hprints es' ds hes' hds
    have hrelevant : ∀ e, fp.Relevant es e ↔ fp.Relevant (es' ++ ds) e := by
      intro e
      rw [relevant_append hds]
      exact relevant_of_mem_iff (fun e => (hes' e).symm) e
    obtain ⟨value1, value2, _, hcall1, hcall2, hmem, hiff⟩ := getFingerprint_congr hpos hvalue hne hnames hrelevant
    have hvalues := hiff.mpr (constraintText_congr hrelevant hprints fun v hv => (hmem v).mp hv)
    rw [hcall1] at hcall
    refine ⟨fp.clear, exprSort (es' ++ ds), ?_⟩
    rw [hcall2, ← hvalues, (Prod.mk.inj (Option.some.inj hcall)).1]

omit [LinearOrder K] in
lemma not_relevant (h : fp.referenced = []) (e : E) : ¬ fp.Relevant es e := by
  rintro ⟨-, b, -, a, ha, -⟩
  rw [h] at ha
  exact absurd ha not_mem_nil

lemma getFingerprint_nil (es : List E) (h : fp.referenced = []) :
    fp.getFingerprint stringSet es = some (fp.fingerprintValue, fp, es) := by
  have hentries : fp.symbolicReferences.entries = [] := map_eq_nil_iff.mp h
  rw [getFingerprint, hentries, h]
  rfl

lemma folded_exact {arrSet : List A} (hmem : ∀ b, b ∈ arrSet ↔ fp.Connected es b) :
    (∀ c ∈ folded es arrSet, fp.Relevant es c) ∧ ∀ e, fp.Relevant es e → ∃ c ∈ folded es arrSet, key c = key e := by
  constructor
  · intro c hc
    obtain ⟨v, hv, hc⟩ := mem_flatMap.mp hc
    obtain ⟨hfirst, hused⟩ := mem_constraintsOf.mp hc
    have hsort : c ∈ exprSort es := (firsts_sublist (exprSort es)).subset hfirst
    exact ⟨(sort_perm es).mem_iff.mp hsort, v, hused, (hmem v).mp hv⟩
  · intro e he
    obtain ⟨hes, v, hv, hconnected⟩ := he
    have hsort : e ∈ exprSort es := (sort_perm es).mem_iff.mpr hes
    obtain ⟨c, hc, hkey⟩ := exists_mem_constraintsOf hsort hv
    exact ⟨c, mem_flatMap.mpr ⟨v, (hmem v).mpr hconnected, hc⟩, hkey⟩

end MemoryFingerprint

variable {F I : Type} [DecidableEq F] [DecidableEq I] [LinearOrder K] {S : Store F I A}
  {calls : List (Operation F I × Fragment A)}

/-- A call adds one fragment, of the relevant constraints. Only these matter exactly if equal ones are printed alike. -/
theorem Run.getFingerprint_exact (h : Run S calls) (f : F) (es : List E)
    (hpos : ∀ s ∈ (S.fingerprints f).symbolicReferences.entries, 0 < s.2.toInt)
    (hnames : (S.fingerprints f).NamesDistinct es) :
    ∃ value fp' vector, (S.fingerprints f).getFingerprint stringSet es = some (value, fp', vector) ∧
      (fp'.fingerprintValue = (S.fingerprints f).fingerprintValue ∧
        fp'.symbolicReferences = (S.fingerprints f).symbolicReferences ∧
          ((S.fingerprints f).clear = S.fingerprints f → fp' = S.fingerprints f)) ∧
      ((S.fingerprints f).referenced = [] → value = (S.fingerprints f).fingerprintValue) ∧
      ((S.fingerprints f).referenced ≠ [] → ∃ constraints : List E,
        value.count = (S.fingerprints f).fingerprintValue.count +
          Pi.single (appendTexts ((S.fingerprints f).updateUint8 10).current (constraints.map printSingleExpr)) 1 ∧
        (∀ c ∈ constraints, (S.fingerprints f).Relevant es c) ∧
          ∀ e, (S.fingerprints f).Relevant es e → ∃ c ∈ constraints, key c = key e) ∧
      ((S.fingerprints f).OrderIndependent es value ↔ (S.fingerprints f).PrintsAlike es) := by
  have hvalue := (h.represents.fingerprints f).noZero
  generalize S.fingerprints f = fp at hpos hnames hvalue ⊢
  by_cases hnil : fp.referenced = []
  · refine ⟨fp.fingerprintValue, fp, es, fp.getFingerprint_nil es hnil, ⟨rfl, rfl, fun _ => rfl⟩,
      fun _ => rfl, fun hne => absurd hnil hne, ?_, ?_⟩
    · intro _ a b ha
      exact absurd ha (MemoryFingerprint.not_relevant hnil a)
    · intro _ es' ds _ _
      exact ⟨fp, es' ++ ds, fp.getFingerprint_nil (es' ++ ds) hnil⟩
  · obtain ⟨value, arrSet, hcall, -, hcount, -, -, hmem⟩ := MemoryFingerprint.getFingerprint_spec fp es hpos hvalue hnil
    refine ⟨value, fp.clear, exprSort es, hcall, ⟨?_, ?_, fun hclear => hclear⟩, fun h =>
      absurd h hnil, fun _ => ?_, ?_⟩
    · exact fp.clear_fingerprintValue
    · exact fp.clear_symbolicReferences
    · exact ⟨folded es arrSet, hcount, MemoryFingerprint.folded_exact hmem⟩
    · exact MemoryFingerprint.orderIndependent_iff hpos hvalue hnil hnames hcall

end Fingerprint
