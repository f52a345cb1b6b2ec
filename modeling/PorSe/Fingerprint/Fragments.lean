import PorSe.Fingerprint.MemoryFingerprint
import PorSe.Lib.Fields
import PorSe.Por.ThreadId

/-! The fragments of which a fingerprint is made, and that the texts of concrete ones tell
them apart. -/

namespace Fingerprint
open Por List

/-- A constant, or a symbolic expression by its text and the arrays in it. -/
inductive Value (A : Type)
  | concrete (width : ℕ) (value : BitVec width)
  | symbolic (text : String) (usedArrays : List A)

namespace MemoryFingerprint
variable {V A : Type} [LinearOrder A] (fp : MemoryFingerprint V A)

def updateConstantExpr (width : ℕ) (value : BitVec width) : MemoryFingerprint V A :=
  if width ≤ 64 then fp.updateUint64 (.ofBitVec (value.setWidth 64))
  else (List.range ((width + 63) / 64)).foldl
    (fun fp i => fp.updateUint64 (.ofBitVec (value.extractLsb' (64 * i) 64))) fp

/-- `getZExtValue(8)` refuses wider constants. Here and below the flag says whether the value is symbolic. -/
def updateWriteFragment (address : UInt64) : Value A → Option (MemoryFingerprint V A × Bool)
  | .concrete width value =>
    if width ≤ 8 then
      some (((fp.updateUint8 1).updateUint64 address).updateUint8 (.ofBitVec (value.setWidth 8)), false)
    else none
  | .symbolic text usedArrays => some (((fp.updateUint8 2).updateUint64 address).updateExpr text usedArrays, true)

/-- The size is a `std::size_t`, written as any other number. -/
def updateThreadId (tid : ThreadId) : MemoryFingerprint V A :=
  tid.ids.foldl (fun fp v => fp.updateUint16 (.ofFin v)) (fp.update (toString tid.ids.length))

variable (threadID : ThreadId)

def updateLocalFragment (stackFrameIndex inst : UInt64) : Value A → MemoryFingerprint V A × Bool
  | .concrete width value =>
    (((((fp.updateUint8 3).updateThreadId threadID).updateUint64 stackFrameIndex).updateUint64 inst).updateConstantExpr
      width value, false)
  | .symbolic text usedArrays =>
    (((((fp.updateUint8 4).updateThreadId threadID).updateUint64 stackFrameIndex).updateUint64 inst).updateExpr
      text usedArrays, true)

def updateArgumentFragment (sfIndex kf argumentIndex : UInt64) : Value A → MemoryFingerprint V A × Bool
  | .concrete width value =>
    ((((((fp.updateUint8 5).updateThreadId threadID).updateUint64 sfIndex).updateUint64 kf).updateUint64
      argumentIndex).updateConstantExpr width value, false)
  | .symbolic text usedArrays =>
    ((((((fp.updateUint8 6).updateThreadId threadID).updateUint64 sfIndex).updateUint64 kf).updateUint64
      argumentIndex).updateExpr text usedArrays, true)

def updateProgramCounterFragment (sfIndex i step : UInt64) : MemoryFingerprint V A × Bool :=
  (((((fp.updateUint8 7).updateThreadId threadID).updateUint64 sfIndex).updateUint64 step).updateUint64 i, false)

def updateFunctionFragment (sfIndex callee caller : UInt64) : MemoryFingerprint V A × Bool :=
  (((((fp.updateUint8 8).updateThreadId threadID).updateUint64 sfIndex).updateUint64 caller).updateUint64 callee, false)

def updateExternalCallFragment (externalCallCounter : UInt64) : MemoryFingerprint V A × Bool :=
  ((fp.updateUint8 9).updateUint64 externalCallCounter, false)

def updateAcquiredLockFragment (lockId : UInt64) (holdingThread : ThreadId) : MemoryFingerprint V A × Bool :=
  (((fp.updateUint8 11).updateUint64 lockId).updateThreadId holdingThread, false)

variable (threadId : ThreadId)

def updateThreadStateFragment (state : UInt8) : MemoryFingerprint V A :=
  ((fp.updateUint8 12).updateThreadId threadId).updateUint8 state

def updateThreadWaitingOnLockFragment (lockId : UInt64) : MemoryFingerprint V A :=
  ((fp.updateUint8 13).updateThreadId threadId).updateUint64 lockId

def updateThreadWaitingOnCV1Fragment (condId lockId : UInt64) : MemoryFingerprint V A :=
  (((fp.updateUint8 14).updateThreadId threadId).updateUint64 condId).updateUint64 lockId

def updateThreadWaitingOnCV2Fragment (condId lockId : UInt64) : MemoryFingerprint V A :=
  (((fp.updateUint8 15).updateThreadId threadId).updateUint64 condId).updateUint64 lockId

def updateThreadWaitingOnJoinFragment (threadId joinedId : ThreadId) : MemoryFingerprint V A :=
  ((fp.updateUint8 16).updateThreadId threadId).updateThreadId joinedId

end MemoryFingerprint

/-- A call; instructions and functions are given by their addresses. -/
inductive FragmentCall (A : Type)
  | write (address : UInt64) (value : Value A)
  | localValue (threadID : ThreadId) (stackFrameIndex inst : UInt64) (value : Value A)
  | argument (threadID : ThreadId) (sfIndex kf argumentIndex : UInt64) (value : Value A)
  | programCounter (threadID : ThreadId) (sfIndex i step : UInt64)
  | function (threadID : ThreadId) (sfIndex callee caller : UInt64)
  | externalCall (externalCallCounter : UInt64)
  | acquiredLock (lockId : UInt64) (holdingThread : ThreadId)
  | threadState (threadId : ThreadId) (state : UInt8)
  | waitingOnLock (threadId : ThreadId) (lockId : UInt64)
  | waitingOnCV1 (threadId : ThreadId) (condId lockId : UInt64)
  | waitingOnCV2 (threadId : ThreadId) (condId lockId : UInt64)
  | waitingOnJoin (threadId joinedId : ThreadId)

namespace FragmentCall
variable {V A : Type} [LinearOrder A]

def update (fp : MemoryFingerprint V A) : FragmentCall A → Option (MemoryFingerprint V A)
  | write address value => (fp.updateWriteFragment address value).map Prod.fst
  | localValue threadID stackFrameIndex inst value =>
    some (fp.updateLocalFragment threadID stackFrameIndex inst value).1
  | argument threadID sfIndex kf argumentIndex value =>
    some (fp.updateArgumentFragment threadID sfIndex kf argumentIndex value).1
  | programCounter threadID sfIndex i step => some (fp.updateProgramCounterFragment threadID sfIndex i step).1
  | function threadID sfIndex callee caller => some (fp.updateFunctionFragment threadID sfIndex callee caller).1
  | externalCall externalCallCounter => some (fp.updateExternalCallFragment externalCallCounter).1
  | acquiredLock lockId holdingThread => some (fp.updateAcquiredLockFragment lockId holdingThread).1
  | threadState threadId state => some (fp.updateThreadStateFragment threadId state)
  | waitingOnLock threadId lockId => some (fp.updateThreadWaitingOnLockFragment threadId lockId)
  | waitingOnCV1 threadId condId lockId => some (fp.updateThreadWaitingOnCV1Fragment threadId condId lockId)
  | waitingOnCV2 threadId condId lockId => some (fp.updateThreadWaitingOnCV2Fragment threadId condId lockId)
  | waitingOnJoin threadId joinedId => some (fp.updateThreadWaitingOnJoinFragment threadId joinedId)

def IsConcrete : FragmentCall A → Prop
  | write _ (.symbolic _ _) => False
  | localValue _ _ _ (.symbolic _ _) => False
  | argument _ _ _ _ (.symbolic _ _) => False
  | _ => True

/-- The values of one instruction, of one argument and of memory writes have one width. -/
def SameWidth : FragmentCall A → FragmentCall A → Prop
  | write _ (.concrete width _), write _ (.concrete width' _) => width = width'
  | localValue _ _ inst (.concrete width _), localValue _ _ inst' (.concrete width' _) => inst = inst' → width = width'
  | argument _ _ kf argumentIndex (.concrete width _), argument _ _ kf' argumentIndex' (.concrete width' _) =>
    kf = kf' → argumentIndex = argumentIndex' → width = width'
  | _, _ => True

end FragmentCall

/-! ## The numbers in a text -/

namespace MemoryFingerprint
variable {V A : Type} [LinearOrder A]

structure Holds (fp : MemoryFingerprint V A) (ns : List ℕ) : Prop where
  current : fp.current = Fields.text ns
  first : fp.first = decide (ns = [])

namespace Holds
variable {fp : MemoryFingerprint V A} {ns : List ℕ}

lemma clear (fp : MemoryFingerprint V A) : fp.clear.Holds [] := by
  rw [MemoryFingerprint.clear]
  split_ifs <;> exact ⟨rfl, rfl⟩

lemma update (h : fp.Holds ns) (n : ℕ) : (fp.update (toString n)).Holds (ns ++ [n]) := by
  constructor
  · rw [Fields.text_concat, MemoryFingerprint.update]
    by_cases hns : ns = []
    · subst hns
      simp only [h.first, h.current]
      exact String.empty_append
    · simp only [h.first, h.current, hns, decide_false, Bool.false_eq_true, if_false]
  · simp [MemoryFingerprint.update]

lemma congr {ms : List ℕ} (h : fp.Holds ns) (hns : ns = ms) : fp.Holds ms := hns ▸ h

lemma updateUint8 (h : fp.Holds ns) (v : UInt8) : (fp.updateUint8 v).Holds (ns ++ [v.toNat]) := h.update _

lemma updateUint64 (h : fp.Holds ns) (v : UInt64) : (fp.updateUint64 v).Holds (ns ++ [v.toNat]) := h.update _

lemma foldl {α : Type} (f : MemoryFingerprint V A → α → MemoryFingerprint V A) (g : α → ℕ)
    (hf : ∀ fp ns x, fp.Holds ns → (f fp x).Holds (ns ++ [g x])) :
    ∀ (xs : List α) {fp : MemoryFingerprint V A} {ns : List ℕ}, fp.Holds ns → (xs.foldl f fp).Holds (ns ++ xs.map g)
  | [], fp, ns, h => by simpa using h
  | x :: xs, fp, ns, h => by
    have htail := foldl f g hf xs (hf fp ns x h)
    rwa [append_assoc] at htail

end Holds

end MemoryFingerprint

def threadIdFields (tid : ThreadId) : List ℕ := Fields.counted (tid.ids.map Fin.val)

def constantFields (width : ℕ) (value : BitVec width) : List ℕ :=
  if width ≤ 64 then [value.toNat] else Fields.words value

lemma threadIdFields_inj {t t' : ThreadId} {rest rest' : List ℕ}
    (h : threadIdFields t ++ rest = threadIdFields t' ++ rest') : t = t' ∧ rest = rest' := by
  obtain ⟨hids, hrest⟩ := Fields.counted_append_inj h
  exact ⟨ThreadId.ids_injective (map_injective_iff.mpr Fin.val_injective hids), hrest⟩

lemma constantFields_injective (width : ℕ) : Function.Injective (constantFields width) := by
  intro v v' h
  rw [constantFields, constantFields] at h
  split_ifs at h
  · exact BitVec.eq_of_toNat_eq (singleton_inj.mp h)
  · exact Fields.words_injective h

namespace MemoryFingerprint.Holds
variable {V A : Type} [LinearOrder A] {fp : MemoryFingerprint V A} {ns : List ℕ}

lemma updateThreadId (h : fp.Holds ns) (tid : ThreadId) : (fp.updateThreadId tid).Holds (ns ++ threadIdFields tid) := by
  have hids := foldl (fun (fp : MemoryFingerprint V A) v => fp.updateUint16 (.ofFin v)) Fin.val
    (fun fp ns v h => h.update v.val) tid.ids (h.update tid.ids.length)
  rw [append_assoc] at hids
  rw [threadIdFields, Fields.counted, length_map]
  exact hids

lemma updateConstantExpr (h : fp.Holds ns) (width : ℕ) (value : BitVec width) :
    (fp.updateConstantExpr width value).Holds (ns ++ constantFields width value) := by
  rw [MemoryFingerprint.updateConstantExpr, constantFields]
  split_ifs with hw
  · have hnat : (UInt64.ofBitVec (value.setWidth 64)).toNat = value.toNat :=
      BitVec.toNat_setWidth_of_le hw
    rw [← hnat]
    exact h.updateUint64 _
  · exact foldl (fun (fp : MemoryFingerprint V A) i => fp.updateUint64 (.ofBitVec (value.extractLsb' (64 * i) 64)))
      (fun i => (value.extractLsb' (64 * i) 64).toNat) (fun fp ns i h => h.updateUint64 _) _ h

end MemoryFingerprint.Holds

namespace FragmentCall
variable {V A : Type} {f f' : FragmentCall A}

def fields : FragmentCall A → List ℕ
  | write address (.concrete _ value) => [1, address.toNat, value.toNat]
  | localValue threadID stackFrameIndex inst (.concrete width value) =>
    3 :: (threadIdFields threadID ++ stackFrameIndex.toNat :: inst.toNat :: constantFields width value)
  | argument threadID sfIndex kf argumentIndex (.concrete width value) =>
    5 :: (threadIdFields threadID ++ sfIndex.toNat :: kf.toNat :: argumentIndex.toNat :: constantFields width value)
  | programCounter threadID sfIndex i step => 7 :: (threadIdFields threadID ++ [sfIndex.toNat, step.toNat, i.toNat])
  | function threadID sfIndex callee caller =>
    8 :: (threadIdFields threadID ++ [sfIndex.toNat, caller.toNat, callee.toNat])
  | externalCall externalCallCounter => [9, externalCallCounter.toNat]
  | acquiredLock lockId holdingThread => 11 :: lockId.toNat :: threadIdFields holdingThread
  | threadState threadId state => 12 :: (threadIdFields threadId ++ [state.toNat])
  | waitingOnLock threadId lockId => 13 :: (threadIdFields threadId ++ [lockId.toNat])
  | waitingOnCV1 threadId condId lockId => 14 :: (threadIdFields threadId ++ [condId.toNat, lockId.toNat])
  | waitingOnCV2 threadId condId lockId => 15 :: (threadIdFields threadId ++ [condId.toNat, lockId.toNat])
  | waitingOnJoin threadId joinedId => 16 :: (threadIdFields threadId ++ threadIdFields joinedId)
  | _ => []

def kind : FragmentCall A → ℕ
  | write _ _ => 1
  | localValue _ _ _ _ => 3
  | argument _ _ _ _ _ => 5
  | programCounter _ _ _ _ => 7
  | function _ _ _ _ => 8
  | externalCall _ => 9
  | acquiredLock _ _ => 11
  | threadState _ _ => 12
  | waitingOnLock _ _ => 13
  | waitingOnCV1 _ _ _ => 14
  | waitingOnCV2 _ _ _ => 15
  | waitingOnJoin _ _ => 16

lemma head?_fields (hf : f.IsConcrete) : f.fields.head? = some f.kind := by
  cases f with
  | write _ value | localValue _ _ _ value | argument _ _ _ _ value =>
    cases value with
    | concrete => rfl
    | symbolic => exact hf.elim
  | _ => rfl

lemma fields_ne_nil (hf : f.IsConcrete) : f.fields ≠ [] := by
  intro h
  have hhead := head?_fields hf
  rw [h] at hhead
  cases hhead

lemma holds_update [LinearOrder A] {fp r : MemoryFingerprint V A} (hf : f.IsConcrete)
    (h : f.update fp.clear = some r) : r.Holds f.fields := by
  have hclear := MemoryFingerprint.Holds.clear fp
  cases f with
  | write address value =>
    cases value with
    | symbolic => exact hf.elim
    | concrete width value =>
      rw [update, MemoryFingerprint.updateWriteFragment] at h
      split_ifs at h with hw
      · cases h
        have hbyte : (UInt8.ofBitVec (value.setWidth 8)).toNat = value.toNat := BitVec.toNat_setWidth_of_le hw
        rw [fields, ← hbyte]
        exact ((hclear.updateUint8 1).updateUint64 address).updateUint8 _
      · cases h
  | localValue threadID stackFrameIndex inst value =>
    cases value with
    | symbolic => exact hf.elim
    | concrete width value =>
      cases h
      have hh := ((((hclear.updateUint8 3).updateThreadId threadID).updateUint64 stackFrameIndex).updateUint64
        inst).updateConstantExpr width value
      exact hh.congr (by simp [fields])
  | argument threadID sfIndex kf argumentIndex value =>
    cases value with
    | symbolic => exact hf.elim
    | concrete width value =>
      cases h
      have hh := (((((hclear.updateUint8 5).updateThreadId threadID).updateUint64 sfIndex).updateUint64 kf).updateUint64
        argumentIndex).updateConstantExpr width value
      exact hh.congr (by simp [fields])
  | programCounter threadID sfIndex i step =>
    cases h
    have hh := ((((hclear.updateUint8 7).updateThreadId threadID).updateUint64 sfIndex).updateUint64
      step).updateUint64 i
    exact hh.congr (by simp [fields])
  | function threadID sfIndex callee caller =>
    cases h
    have hh := ((((hclear.updateUint8 8).updateThreadId threadID).updateUint64 sfIndex).updateUint64
      caller).updateUint64
      callee
    exact hh.congr (by simp [fields])
  | externalCall externalCallCounter =>
    cases h
    exact (hclear.updateUint8 9).updateUint64 externalCallCounter
  | acquiredLock lockId holdingThread =>
    cases h
    exact ((hclear.updateUint8 11).updateUint64 lockId).updateThreadId holdingThread
  | threadState threadId state =>
    cases h
    exact ((hclear.updateUint8 12).updateThreadId threadId).updateUint8 state
  | waitingOnLock threadId lockId =>
    cases h
    exact ((hclear.updateUint8 13).updateThreadId threadId).updateUint64 lockId
  | waitingOnCV1 threadId condId lockId =>
    cases h
    have hh := (((hclear.updateUint8 14).updateThreadId threadId).updateUint64 condId).updateUint64 lockId
    exact hh.congr (by simp [fields])
  | waitingOnCV2 threadId condId lockId =>
    cases h
    have hh := (((hclear.updateUint8 15).updateThreadId threadId).updateUint64 condId).updateUint64 lockId
    exact hh.congr (by simp [fields])
  | waitingOnJoin threadId joinedId =>
    cases h
    exact ((hclear.updateUint8 16).updateThreadId threadId).updateThreadId joinedId

/-- The first number tells the kind, the length of a thread id where it ends. -/
lemma fields_injective (hf : f.IsConcrete) (hf' : f'.IsConcrete) (hwidth : f.SameWidth f')
    (h : f.fields = f'.fields) : f = f' := by
  have hkind : f.kind = f'.kind := by
    apply Option.some.inj
    rw [← head?_fields hf, ← head?_fields hf', h]
  cases f <;> cases f' <;> simp only [kind, Nat.reduceEqDiff] at hkind
  case write.write a v a' v' =>
    cases v <;> cases v' <;> try contradiction
    case concrete.concrete w v w' v' =>
      obtain rfl : w = w' := hwidth
      simp only [fields, cons.injEq, UInt64.toNat_inj, true_and, and_true] at h
      obtain ⟨rfl, hv⟩ := h
      rw [BitVec.eq_of_toNat_eq hv]
  case localValue.localValue t sf inst v t' sf' inst' v' =>
    cases v <;> cases v' <;> try contradiction
    case concrete.concrete w v w' v' =>
      obtain ⟨rfl, hrest⟩ := threadIdFields_inj (cons.inj h).2
      simp only [cons.injEq, UInt64.toNat_inj] at hrest
      obtain ⟨rfl, rfl, hv⟩ := hrest
      obtain rfl : w = w' := hwidth rfl
      rw [constantFields_injective w hv]
  case argument.argument t sf kf i v t' sf' kf' i' v' =>
    cases v <;> cases v' <;> try contradiction
    case concrete.concrete w v w' v' =>
      obtain ⟨rfl, hrest⟩ := threadIdFields_inj (cons.inj h).2
      simp only [cons.injEq, UInt64.toNat_inj] at hrest
      obtain ⟨rfl, rfl, rfl, hv⟩ := hrest
      obtain rfl : w = w' := hwidth rfl rfl
      rw [constantFields_injective w hv]
  case externalCall.externalCall c c' =>
    simp only [fields, cons.injEq, UInt64.toNat_inj, true_and, and_true] at h
    rw [h]
  case acquiredLock.acquiredLock l t l' t' =>
    simp only [fields, cons.injEq, UInt64.toNat_inj, true_and] at h
    obtain ⟨rfl, htid⟩ := h
    obtain ⟨rfl, -⟩ := threadIdFields_inj (congrArg (· ++ []) htid)
    rfl
  case threadState.threadState t s t' s' =>
    obtain ⟨rfl, hrest⟩ := threadIdFields_inj (cons.inj h).2
    rw [UInt8.toNat_inj.mp (singleton_inj.mp hrest)]
  case waitingOnJoin.waitingOnJoin t j t' j' =>
    obtain ⟨rfl, hrest⟩ := threadIdFields_inj (cons.inj h).2
    obtain ⟨rfl, -⟩ := threadIdFields_inj (congrArg (· ++ []) hrest)
    rfl
  -- a thread id and some more numbers
  all_goals
    obtain ⟨rfl, hrest⟩ := threadIdFields_inj (cons.inj h).2
    simp only [cons.injEq, UInt64.toNat_inj] at hrest
    simp [hrest]

theorem update_injective [LinearOrder A] {fp fp' r r' : MemoryFingerprint StringSet A} (hf : f.IsConcrete)
    (hf' : f'.IsConcrete) (hwidth : f.SameWidth f') (h : f.update fp.clear = some r)
    (h' : f'.update fp'.clear = some r') (htext : r.current = r'.current) : f = f' := by
  apply fields_injective hf hf' hwidth
  apply Fields.text_injOn (fields_ne_nil hf) (fields_ne_nil hf')
  rw [← (holds_update hf h).current, ← (holds_update hf' h').current, htext]

theorem update_injective_join : ∃ r : MemoryFingerprint StringSet ℕ,
      (waitingOnJoin ThreadId.main worker).update (MemoryFingerprint.initial stringSet).clear = some r ∧
      ∀ (f' : FragmentCall ℕ) (r' : MemoryFingerprint StringSet ℕ), f'.IsConcrete →
        (waitingOnJoin ThreadId.main worker).SameWidth f' →
        f'.update (MemoryFingerprint.initial stringSet).clear = some r' → r.current = r'.current →
        waitingOnJoin ThreadId.main worker = f' :=
  ⟨_, rfl, fun _ _ hf' hwidth h' htext => update_injective trivial hf' hwidth rfl h' htext⟩

end FragmentCall

end Fingerprint
