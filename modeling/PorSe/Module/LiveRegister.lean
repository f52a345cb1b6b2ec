import PorSe.Lib.Dataflow
import PorSe.Lib.ListSearch

/-! The analysis that finds the live registers of a function: those that some path reads before
it redefines them. -/

open List Function ListSearch

namespace Llvm

inductive Value
  | inst (id : ℕ)
  | argument (index : ℕ)
  | other
deriving DecidableEq

structure PhiNode where
  id : ℕ
  incoming : List (ℕ × Value)

structure Operation where
  id : ℕ
  operands : List Value

/-- PHI nodes come first, and the terminator, which names the successors, last. -/
structure BasicBlock where
  id : ℕ
  phis : List PhiNode
  body : List Operation
  terminator : Operation
  successors : List ℕ

inductive Instruction
  | nop (block : ℕ)
  | phi (node : PhiNode)
  | operation (op : Operation)

inductive InstructionId
  | nop (block : ℕ)
  | inst (id : ℕ)
deriving DecidableEq

def PhiNode.getIncomingValueForBlock (node : PhiNode) (block : ℕ) : Option Value :=
  (node.incoming.find? (·.1 = block)).map Prod.snd

namespace Instruction

def key : Instruction → InstructionId
  | nop block => .nop block
  | phi node => .inst node.id
  | operation op => .inst op.id

def isPhi : Instruction → Bool
  | phi _ => true
  | _ => false

/-- What is read where the instruction stands: PHI nodes read on the edges, the NOP has two constants. -/
def operands : Instruction → List Value
  | nop _ => []
  | phi _ => []
  | operation op => op.operands

end Instruction

namespace BasicBlock

variable (bb : BasicBlock)

def instructions : List Instruction :=
  bb.phis.map .phi ++ bb.body.map .operation ++ [.operation bb.terminator]

/-- `insertNopInstruction` -/
def withNop : List Instruction := .nop bb.id :: bb.instructions

def uses : List Value :=
  bb.phis.flatMap (fun node => node.incoming.map Prod.snd) ++ bb.instructions.flatMap (·.operands)

end BasicBlock

/-- A function in SSA form: each register is defined once, and PHI nodes name predecessors. -/
structure Function where
  blocks : List BasicBlock
  blocks_nodup : (blocks.map BasicBlock.id).Nodup
  instructions_nodup : ((blocks.flatMap BasicBlock.instructions).map Instruction.key).Nodup
  incoming_pred : ∀ c ∈ blocks, ∀ node ∈ c.phis, ∀ e ∈ node.incoming, ∃ b ∈ blocks, b.id = e.1 ∧ c.id ∈ b.successors

namespace Function
variable (F : Function)

def numUses (id : ℕ) : ℕ := (F.blocks.flatMap BasicBlock.uses).count (.inst id)

def hasPhiUser (v : Value) : Bool := F.blocks.any fun bb => bb.phis.any fun node => node.incoming.any (·.2 = v)

def getTerminator (block : ℕ) : Option InstructionId :=
  (F.blocks.find? (·.id = block)).map fun bb => .inst bb.terminator.id

def predecessors (block : ℕ) : List BasicBlock :=
  F.blocks.flatMap fun bb => (bb.successors.filter (· = block)).map fun _ => bb

end Function

end Llvm

namespace Klee.LiveRegister
open Llvm

abbrev Edge := InstructionId × InstructionId

structure InstructionInfo where
  predecessorEdges : List Edge := []
  gen : Finset Value := ∅
  kill : Finset Value := ∅

inductive Entry
  | edge (e : Edge)
  | kill (i : InstructionId) (v : Value)
  | gen (i : InstructionId) (v : Value)

abbrev Infos := InstructionId → InstructionInfo

def Entry.apply (infos : Infos) : Entry → Infos
  | edge e =>
    update infos e.1 { infos e.1 with predecessorEdges := (infos e.1).predecessorEdges ++ [e] }
  | kill i v => update infos i { infos i with kill := insert v (infos i).kill }
  | gen i v => update infos i { infos i with gen := insert v (infos i).gen }

section
variable (F : Llvm.Function)

/-- The instruction before, or the terminators of the preceding blocks. -/
def predecessorEdges (bb : BasicBlock) (previ : Option Instruction) (i : Instruction) : List Edge :=
  match previ with
  | none => (F.predecessors bb.id).map fun pred => (i.key, .inst pred.terminator.id)
  | some previ => [(i.key, previ.key)]

def killEntries (i : Instruction) : List Entry :=
  match i.key with
  | .nop _ => []
  | .inst id => if F.numUses id ≠ 0 then [.kill i.key (.inst id)] else []

/-- A PHI node attaches its operands to the terminators of the incoming blocks. -/
def genEntries (i : Instruction) : List Entry :=
  match i with
  | .phi node =>
    node.incoming.filterMap fun e =>
      match node.getIncomingValueForBlock e.1 with
      | some (.inst id) => (F.getTerminator e.1).map fun incomingTerm => .gen incomingTerm (.inst id)
      | _ => none
  | _ => (i.operands.filter (· ≠ .other)).map fun v => .gen i.key v

def blockEntries (bb : BasicBlock) : List Entry :=
  ((none :: bb.withNop.map some).zip bb.withNop).flatMap fun (previ, i) =>
    (predecessorEdges F bb previ i).map .edge ++ killEntries F i ++ genEntries F i

def entries : List Entry := F.blocks.flatMap (blockEntries F)

def generateInstructionInfo : Infos := (entries F).foldl Entry.apply fun _ => {}

end

/-! ## What the infos hold -/

def Entry.edges : Entry → List Edge
  | edge e => [e]
  | kill _ _ => []
  | gen _ _ => []

section
variable (infos : Infos) (entry : Entry) (i : InstructionId) (v : Value)

lemma predecessorEdges_apply :
    (entry.apply infos i).predecessorEdges = (infos i).predecessorEdges ++ entry.edges.filter (·.1 = i) := by
  cases entry with
  | edge e =>
    by_cases he : e.1 = i
    · subst he
      simp [Entry.apply, Entry.edges]
    · simp [Entry.apply, Entry.edges, he, update_of_ne (Ne.symm he)]
  | kill j u | gen j u =>
    rw [Entry.edges, filter_nil, append_nil, Entry.apply, update_apply]
    split_ifs with hij
    · rw [hij]
    · rfl

lemma mem_apply : (v ∈ (entry.apply infos i).gen ↔ v ∈ (infos i).gen ∨ entry = .gen i v) ∧
    (v ∈ (entry.apply infos i).kill ↔ v ∈ (infos i).kill ∨ entry = .kill i v) := by
  cases entry with
  | edge e | kill j u | gen j u =>
    rw [Entry.apply, update_apply]
    split_ifs with hij
    · simp [hij, or_comm, eq_comm]
    · simp [Ne.symm hij]

end

lemma foldl_apply (es : List Entry) (infos : Infos) (i : InstructionId) :
    (es.foldl Entry.apply infos i).predecessorEdges =
        (infos i).predecessorEdges ++ (es.flatMap Entry.edges).filter (·.1 = i) ∧
      (∀ v, v ∈ (es.foldl Entry.apply infos i).gen ↔ v ∈ (infos i).gen ∨ .gen i v ∈ es) ∧
      ∀ v, v ∈ (es.foldl Entry.apply infos i).kill ↔ v ∈ (infos i).kill ∨ .kill i v ∈ es := by
  induction es generalizing infos with
  | nil => simp
  | cons entry es ih =>
    obtain ⟨hedges, hgen, hkill⟩ := ih (entry.apply infos)
    rw [foldl_cons]
    refine ⟨?_, fun v => ?_, fun v => ?_⟩
    · rw [hedges, predecessorEdges_apply, flatMap_cons, filter_append, append_assoc]
    · rw [hgen, (mem_apply infos entry i v).1, mem_cons, or_assoc, eq_comm]
    · rw [hkill, (mem_apply infos entry i v).2, mem_cons, or_assoc, eq_comm]

section
variable (F : Llvm.Function)

variable {i : InstructionId}

lemma mem_predecessorEdges {e : Edge} :
    e ∈ (generateInstructionInfo F i).predecessorEdges ↔ .edge e ∈ entries F ∧ e.1 = i := by
  rw [generateInstructionInfo, (foldl_apply _ _ i).1, nil_append, mem_filter, mem_flatMap, decide_eq_true_iff]
  refine and_congr_left fun _ => ⟨?_, fun he => ⟨_, he, mem_singleton_self e⟩⟩
  rintro ⟨entry, hentry, he⟩
  cases entry with
  | edge e' =>
    obtain rfl := mem_singleton.mp he
    exact hentry
  | kill | gen => cases he

lemma mem_gen {v : Value} : v ∈ (generateInstructionInfo F i).gen ↔ .gen i v ∈ entries F := by
  rw [generateInstructionInfo, (foldl_apply _ _ i).2.1]
  exact or_iff_right (Finset.notMem_empty v)

lemma mem_kill {v : Value} : v ∈ (generateInstructionInfo F i).kill ↔ .kill i v ∈ entries F := by
  rw [generateInstructionInfo, (foldl_apply _ _ i).2.2]
  exact or_iff_right (Finset.notMem_empty v)

end

/-! ## The pass -/

section
variable (F : Llvm.Function)

def problem : Dataflow.Problem InstructionId Value where
  edges i := (generateInstructionInfo F i).predecessorEdges
  gen i := (generateInstructionInfo F i).gen
  kill i := (generateInstructionInfo F i).kill
  fst_eq _ _ he := ((mem_predecessorEdges F).mp he).2

/-- In the order in which they are appended; they are taken from the end. -/
def initializeWorklist : List Edge :=
  (F.blocks.flatMap BasicBlock.withNop).flatMap fun i => (generateInstructionInfo F i.key).predecessorEdges

def executeWorklistAlgorithm (fuel : ℕ) : Option (InstructionId → Finset Value) :=
  Worklist.run (problem F).step fuel (initializeWorklist F).reverse fun _ => ∅

def propagatePhiUseToLiveSet (live : InstructionId → Finset Value) : InstructionId → Finset Value :=
  F.blocks.foldl (fun live bb =>
    let term := InstructionId.inst bb.terminator.id
    update live term (live term ∪ (generateInstructionInfo F term).gen.filter fun v => F.hasPhiUser v)) live

end

def lastPhi (inst : Instruction) : List Instruction → Instruction
  | [] => inst
  | next :: rest => if next.isPhi then lastPhi next rest else inst

/-- The assertion that a lone instruction is not a PHI node is none. -/
def getLastPHIInstruction : List Instruction → Option Instruction
  | [] => none
  | [i] => if i.isPhi then none else some i
  | i :: j :: rest => if !i.isPhi && j.isPhi then some (lastPhi j rest) else some (lastPhi i (j :: rest))

structure LiveRegisterPass where
  live : InstructionId → Finset Value
  basicBlocks : ℕ → Finset Value
  valid : List InstructionId

def validInstructions (bb : BasicBlock) : Option (List InstructionId) := do
  let first ← getLastPHIInstruction bb.instructions
  some ((bb.instructions.dropWhile (·.key ≠ first.key)).map Instruction.key)

def runOnFunction (F : Llvm.Function) (fuel : ℕ) : Option LiveRegisterPass := do
  let live ← executeWorklistAlgorithm F fuel
  let live := propagatePhiUseToLiveSet F live
  let valid ← F.blocks.mapM validInstructions
  some { live, basicBlocks := fun block => live (.nop block), valid := valid.flatten }

/-! ## The paths -/

/-- Some path from these instructions of a block, or behind them, reads a register before it defines it. -/
inductive Reads (F : Llvm.Function) (x : ℕ) : BasicBlock → List Instruction → Prop
  | operand {b : BasicBlock} {i : Instruction} {rest : List Instruction} : .inst x ∈ i.operands →
      Reads F x b (i :: rest)
  | next {b : BasicBlock} {i : Instruction} {rest : List Instruction} :
    i.key ≠ .inst x → Reads F x b rest → Reads F x b (i :: rest)
  | phi {b c : BasicBlock} {node : PhiNode} : c ∈ F.blocks → c.id ∈ b.successors → node ∈ c.phis →
    node.getIncomingValueForBlock b.id = some (.inst x) → Reads F x b []
  | jump {b c : BasicBlock} : c ∈ F.blocks → c.id ∈ b.successors → Reads F x c c.instructions → Reads F x b []

section
variable (F : Llvm.Function)

def Precedes (n : InstructionId) (b : BasicBlock) (rest : List Instruction) : Prop :=
  b ∈ F.blocks ∧ ∃ pre i, b.withNop = pre ++ i :: rest ∧ i.key = n

variable {F} {m n : InstructionId} {b b' : BasicBlock} {rest rest' : List Instruction}
  {i i' : Instruction} {x : ℕ}

lemma mem_predecessors {c : ℕ} : b ∈ F.predecessors c ↔ b ∈ F.blocks ∧ c ∈ b.successors := by
  rw [Function.predecessors, mem_flatMap]
  constructor
  · rintro ⟨d, hd, hb⟩
    obtain ⟨s, hs, rfl⟩ := mem_map.mp hb
    obtain ⟨hs, heq⟩ := mem_filter.mp hs
    exact ⟨hd, of_decide_eq_true heq ▸ hs⟩
  · rintro ⟨hb, hc⟩
    exact ⟨b, hb, mem_map.mpr ⟨c, mem_filter.mpr ⟨hc, decide_eq_true rfl⟩, rfl⟩⟩

lemma precedes_nop (hb : b ∈ F.blocks) : Precedes F (.nop b.id) b b.instructions := ⟨hb, [], _, rfl, rfl⟩

lemma precedes_terminator (hb : b ∈ F.blocks) : Precedes F (.inst b.terminator.id) b [] := by
  refine ⟨hb, .nop b.id :: (b.phis.map .phi ++ b.body.map .operation), .operation b.terminator, ?_, rfl⟩
  rw [BasicBlock.withNop, BasicBlock.instructions, cons_append]

lemma Precedes.next (h : Precedes F n b (i :: rest)) : Precedes F i.key b rest := by
  obtain ⟨hb, pre, j, hj, -⟩ := h
  exact ⟨hb, pre ++ [j], i, by rw [hj, append_assoc, singleton_append], rfl⟩

lemma key_ne_nop {block : ℕ} (hi : i ∈ b.instructions) : i.key ≠ .nop block := by
  simp only [BasicBlock.instructions, mem_append, mem_map, mem_singleton] at hi
  obtain (⟨_, -, rfl⟩ | ⟨op, -, rfl⟩) | rfl := hi
  · exact nofun
  · exact nofun
  · exact nofun

lemma eq_of_id_eq (hb : b ∈ F.blocks) (hb' : b' ∈ F.blocks) (h : b.id = b'.id) : b = b' :=
  inj_on_of_nodup_map F.blocks_nodup hb hb' h

variable {j : Instruction} {entry : Entry} {node : PhiNode}

lemma eq_of_key_eq (hb : b ∈ F.blocks) (hb' : b' ∈ F.blocks) (hi : i ∈ b.withNop) (hj : j ∈ b'.withNop)
    (h : i.key = j.key) : b = b' := by
  rcases mem_cons.mp hi with rfl | hi
  · rcases mem_cons.mp hj with rfl | hj
    · exact eq_of_id_eq hb hb' (InstructionId.nop.inj h)
    · exact absurd h.symm (key_ne_nop hj)
  · rcases mem_cons.mp hj with rfl | hj
    · exact absurd h (key_ne_nop hi)
    · have hnodup := F.instructions_nodup
      rw [map_flatMap, nodup_flatMap] at hnodup
      have hkey : i.key ∈ b.instructions.map Instruction.key := mem_map_of_mem hi
      have hkey' : i.key ∈ b'.instructions.map Instruction.key := h ▸ mem_map_of_mem hj
      obtain heq | hdisjoint | hdisjoint := rel_or_rel_of_mem hnodup.2 hb hb'
      · exact heq
      · exact absurd hkey' (hdisjoint hkey)
      · exact absurd hkey (hdisjoint hkey')

lemma nodup_withNop (hb : b ∈ F.blocks) : (b.withNop.map Instruction.key).Nodup := by
  have hnodup := F.instructions_nodup
  rw [map_flatMap, nodup_flatMap] at hnodup
  refine nodup_cons.mpr ⟨fun hmem => ?_, hnodup.1 b hb⟩
  obtain ⟨i, hi, hkey⟩ := mem_map.mp hmem
  exact key_ne_nop hi hkey

lemma place_unique (hb : b ∈ F.blocks) (hb' : b' ∈ F.blocks) {pre pre' : List Instruction}
    (hi : b.withNop = pre ++ i :: rest) (hj : b'.withNop = pre' ++ j :: rest') (h : i.key = j.key) :
    b = b' ∧ i = j ∧ rest = rest' := by
  have hmem : i ∈ b.withNop := hi ▸ mem_append_right pre mem_cons_self
  have hmem' : j ∈ b'.withNop := hj ▸ mem_append_right pre' mem_cons_self
  obtain rfl := eq_of_key_eq hb hb' hmem hmem' h
  have hnodup := nodup_withNop hb
  rw [hi] at hnodup
  exact ⟨rfl, (place_unique hnodup (hi.symm.trans hj) h).2⟩

lemma Precedes.unique (h : Precedes F n b rest) (h' : Precedes F n b' rest') : b = b' ∧ rest = rest' := by
  obtain ⟨hb, _, i, hi, hkey⟩ := h
  obtain ⟨hb', _, i', hi', hkey'⟩ := h'
  obtain ⟨hbb, -, hrest⟩ := place_unique hb hb' hi hi' (hkey.trans hkey'.symm)
  exact ⟨hbb, hrest⟩

lemma Precedes.eq_terminator (h : Precedes F n b []) : n = .inst b.terminator.id := by
  obtain ⟨-, _, i, hi, rfl⟩ := h
  rw [BasicBlock.withNop, BasicBlock.instructions, ← cons_append] at hi
  rw [← (append_singleton_inj.mp hi).2]
  rfl

lemma Precedes.mem_instructions (h : Precedes F n b rest) : ∀ i ∈ rest, i ∈ b.instructions := by
  intro i hi
  obtain ⟨-, pre, j, hj, -⟩ := h
  cases pre with
  | nil =>
    rw [(cons.inj hj).2]
    exact hi
  | cons k pre =>
    rw [(cons.inj hj).2]
    exact mem_append_right pre (mem_cons_of_mem j hi)

lemma Precedes.mem_withNop (h : Precedes F n b (i :: rest)) : i ∈ b.withNop :=
  mem_cons_of_mem _ (h.mem_instructions i mem_cons_self)

/-! ## What the entries are -/

lemma mem_entries : entry ∈ entries F ↔ ∃ b ∈ F.blocks,
    ∃ previ i, (previ, i) ∈ (none :: b.withNop.map some).zip b.withNop ∧
      (entry ∈ (predecessorEdges F b previ i).map .edge ∨ entry ∈ killEntries F i ∨ entry ∈ genEntries F i) := by
  simp [entries, blockEntries]

lemma exists_previous (hi : i ∈ b.withNop) : ∃ previ, (previ, i) ∈ (none :: b.withNop.map some).zip b.withNop := by
  have hsnd : ((none :: b.withNop.map some).zip b.withNop).map Prod.snd = b.withNop :=
    map_snd_zip (by rw [length_cons, length_map]; exact Nat.le_succ _)
  rw [← hsnd] at hi
  obtain ⟨⟨previ, i⟩, hmem, rfl⟩ := mem_map.mp hi
  exact ⟨previ, hmem⟩

lemma mem_killEntries : entry ∈ killEntries F i ↔
    ∃ id, i.key = .inst id ∧ F.numUses id ≠ 0 ∧ entry = .kill (.inst id) (.inst id) := by
  rw [killEntries]
  split
  case h_1 block hkey => simp [hkey]
  case h_2 id hkey =>
    split_ifs with hid
    · simp [hkey, hid]
    · simp [hkey, hid]

lemma mem_genEntries : entry ∈ genEntries F i ↔ (∃ v ∈ i.operands, v ≠ .other ∧ entry = .gen i.key v) ∨
      ∃ node, i = .phi node ∧ ∃ e ∈ node.incoming, ∃ id t, node.getIncomingValueForBlock e.1 = some (.inst id) ∧
        F.getTerminator e.1 = some t ∧ entry = .gen t (.inst id) := by
  cases i with
  | nop _ =>
    simp [genEntries, Instruction.operands]
  | operation op =>
    simp only [genEntries, mem_map, mem_filter, decide_eq_true_eq, reduceCtorEq,
      false_and, exists_false, or_false, and_assoc, eq_comm (b := entry)]
  | phi node =>
    simp only [genEntries, Instruction.operands, not_mem_nil, false_and, exists_false, false_or,
      Instruction.phi.injEq, exists_eq_left', mem_filterMap]
    refine exists_congr fun e => and_congr_right fun _ => ?_
    cases hget : node.getIncomingValueForBlock e.1 with
    | none => simp only [reduceCtorEq, false_and, exists_false]
    | some v =>
      cases v with
      | inst id =>
        simp [eq_comm (b := entry)]
      | argument index | other => simp only [reduceCtorEq, Option.some.injEq, false_and, exists_false]

lemma mem_edges : (m, n) ∈ (problem F).edges m ↔
    (∃ c ∈ F.blocks, ∃ b ∈ F.blocks, c.id ∈ b.successors ∧ m = .nop c.id ∧ n = .inst b.terminator.id) ∨
      ∃ b i rest, Precedes F n b (i :: rest) ∧ m = i.key := by
  refine ((mem_predecessorEdges F).trans (and_iff_left rfl)).trans ?_
  simp only [mem_entries, mem_killEntries, mem_genEntries, reduceCtorEq, and_false, exists_false, or_false,
    mem_map, Entry.edge.injEq, exists_eq_right]
  constructor
  · rintro ⟨b, hb, _, i, hzip, he⟩
    obtain ⟨rfl, rest, hi⟩ | ⟨pre, y, rest, rfl, hi⟩ := mem_zip_previous.mp hzip
    · obtain ⟨pred, hpred, heq⟩ := mem_map.mp he
      obtain ⟨rfl, rfl⟩ := Prod.mk.inj heq
      obtain ⟨hmem, hsucc⟩ := mem_predecessors.mp hpred
      rw [← (cons.inj hi).1]
      exact .inl ⟨b, hb, pred, hmem, hsucc, rfl, rfl⟩
    · obtain ⟨rfl, rfl⟩ := Prod.mk.inj (mem_singleton.mp he)
      exact .inr ⟨b, i, rest, ⟨hb, pre, y, hi, rfl⟩, rfl⟩
  · rintro (⟨c, hc, b, hb, hsucc, rfl, rfl⟩ | ⟨b, i, rest, ⟨hb, pre, y, hi, rfl⟩, rfl⟩)
    · refine ⟨c, hc, none, .nop c.id, mem_zip_previous.mpr (.inl ⟨rfl, _, rfl⟩), ?_⟩
      exact mem_map.mpr ⟨b, mem_predecessors.mpr ⟨hb, hsucc⟩, rfl⟩
    · exact ⟨b, hb, some y, i, mem_zip_previous.mpr (.inr ⟨pre, y, rest, rfl, hi⟩), mem_singleton_self _⟩

lemma mem_killed {v : Value} : v ∈ (problem F).kill n ↔ ∃ b ∈ F.blocks, ∃ i ∈ b.withNop,
    ∃ id, i.key = .inst id ∧ F.numUses id ≠ 0 ∧ n = .inst id ∧ v = .inst id := by
  refine (mem_kill F).trans ?_
  simp only [mem_entries, mem_killEntries, mem_genEntries, reduceCtorEq, and_false, exists_false, or_false,
    false_or, mem_map, Entry.kill.injEq]
  constructor
  · rintro ⟨b, hb, previ, i, hzip, hkill⟩
    exact ⟨b, hb, i, (of_mem_zip hzip).2, hkill⟩
  · rintro ⟨b, hb, i, hi, hkill⟩
    obtain ⟨previ, hzip⟩ := exists_previous hi
    exact ⟨b, hb, previ, i, hzip, hkill⟩

lemma getTerminator_eq (hb : b ∈ F.blocks) : F.getTerminator b.id = some (.inst b.terminator.id) := by
  have hfind : F.blocks.find? (·.id = b.id) = some b := by
    have hsome : (F.blocks.find? (·.id = b.id)).isSome := find?_isSome.mpr ⟨b, hb, decide_eq_true rfl⟩
    obtain ⟨c, hc⟩ := Option.isSome_iff_exists.mp hsome
    have hid := find?_some hc
    rw [hc, eq_of_id_eq (mem_of_find?_eq_some hc) hb (of_decide_eq_true hid)]
  rw [Function.getTerminator, hfind, Option.map_some]

def PhiReads (F : Llvm.Function) (x : ℕ) (b : BasicBlock) : Prop :=
  ∃ c ∈ F.blocks, c.id ∈ b.successors ∧ ∃ node ∈ c.phis, node.getIncomingValueForBlock b.id = some (.inst x)

lemma exists_incoming {block : ℕ} {v : Value} (h : node.getIncomingValueForBlock block = some v) :
    (block, v) ∈ node.incoming := by
  obtain ⟨⟨block', v'⟩, hfind, rfl⟩ := Option.map_eq_some_iff.mp h
  have hblock := find?_some hfind
  obtain rfl : block' = block := of_decide_eq_true hblock
  exact mem_of_find?_eq_some hfind

lemma phi_mem_withNop : .phi node ∈ b.withNop ↔ node ∈ b.phis := by
  simp [BasicBlock.withNop, BasicBlock.instructions]

lemma mem_generated : .inst x ∈ (problem F).gen n ↔
    (∃ b ∈ F.blocks, ∃ i ∈ b.withNop, i.key = n ∧ .inst x ∈ i.operands) ∨
      ∃ b ∈ F.blocks, PhiReads F x b ∧ n = .inst b.terminator.id := by
  refine (mem_gen F).trans ?_
  simp only [mem_entries, mem_killEntries, mem_genEntries, reduceCtorEq, and_false, exists_false, false_or,
    mem_map, Entry.gen.injEq]
  constructor
  · rintro ⟨b, hb, previ, i, hzip, ⟨v, hv, -, rfl, rfl⟩ | ⟨node, rfl, e, he, id, t, hid, ht, rfl, hx⟩⟩
    · exact .inl ⟨b, hb, i, (of_mem_zip hzip).2, rfl, hv⟩
    · obtain rfl := Value.inst.inj hx
      have hnode := phi_mem_withNop.mp (of_mem_zip hzip).2
      obtain ⟨pred, hpred, hpid, hsucc⟩ := F.incoming_pred b hb node hnode e he
      rw [← hpid] at hid ht
      rw [getTerminator_eq hpred] at ht
      exact .inr ⟨pred, hpred, ⟨b, hb, hsucc, node, hnode, hid⟩, (Option.some.inj ht).symm⟩
  · rintro (⟨b, hb, i, hi, rfl, hx⟩ | ⟨b, hb, ⟨c, hc, hsucc, node, hnode, hx⟩, rfl⟩)
    · obtain ⟨previ, hzip⟩ := exists_previous hi
      exact ⟨b, hb, previ, i, hzip, .inl ⟨_, hx, nofun, rfl, rfl⟩⟩
    · obtain ⟨previ, hzip⟩ := exists_previous (phi_mem_withNop.mpr hnode)
      refine ⟨c, hc, previ, .phi node, hzip, .inr ⟨node, rfl, (b.id, .inst x), exists_incoming hx, ?_⟩⟩
      exact ⟨x, _, hx, getTerminator_eq hb, rfl, rfl⟩

/-! ## What is live -/

lemma PhiReads.hasPhiUser (h : PhiReads F x b) : F.hasPhiUser (.inst x) := by
  obtain ⟨c, hc, -, node, hnode, hx⟩ := h
  refine any_eq_true.mpr ⟨c, hc, any_eq_true.mpr ⟨node, hnode, any_eq_true.mpr ?_⟩⟩
  exact ⟨_, exists_incoming hx, decide_eq_true rfl⟩

lemma numUses_ne_zero (hb : b ∈ F.blocks) (h : .inst x ∈ b.uses) : F.numUses x ≠ 0 := by
  intro hzero
  exact count_eq_zero.mp hzero (mem_flatMap.mpr ⟨b, hb, h⟩)

lemma PhiReads.numUses_ne_zero (h : PhiReads F x b) : F.numUses x ≠ 0 := by
  obtain ⟨c, hc, -, node, hnode, hx⟩ := h
  refine LiveRegister.numUses_ne_zero hc (mem_append_left _ (mem_flatMap.mpr ⟨node, hnode, ?_⟩))
  exact mem_map.mpr ⟨_, exists_incoming hx, rfl⟩

lemma Reads.numUses_ne_zero (h : Reads F x b rest) (hb : b ∈ F.blocks) (hrest : ∀ i ∈ rest, i ∈ b.instructions) :
    F.numUses x ≠ 0 := by
  induction h with
  | @operand b i rest hi =>
    refine LiveRegister.numUses_ne_zero hb (mem_append_right _ (mem_flatMap.mpr ⟨i, ?_, hi⟩))
    exact hrest i mem_cons_self
  | next _ _ ih => exact ih hb fun j hj => hrest j (mem_cons_of_mem _ hj)
  | phi hc hsucc hnode hx => exact PhiReads.numUses_ne_zero ⟨_, hc, hsucc, _, hnode, hx⟩
  | jump hc _ _ ih => exact ih hc fun i hi => hi

lemma instructions_ne_nil : b.instructions ≠ [] := by
  intro h
  exact cons_ne_nil _ _ (append_eq_nil_iff.mp h).2

lemma eq_of_precedes (hb : b ∈ F.blocks) (hi : i ∈ b.withNop) (hn : Precedes F n b' (i' :: rest))
    (hkey : i.key = i'.key) : i = i' := by
  obtain ⟨_, _, heq⟩ := append_of_mem hi
  obtain ⟨hb', _, j, hj, -⟩ := hn
  rw [← singleton_append, ← append_assoc] at hj
  exact (place_unique hb hb' heq hj hkey).2.1

lemma not_gen_nop {c : ℕ} : .inst x ∉ (problem F).gen (.nop c) := by
  intro h
  obtain ⟨b, -, i, hi, hkey, hx⟩ | ⟨b, -, -, hkey⟩ := mem_generated.mp h
  · rcases mem_cons.mp hi with rfl | hi
    · cases hx
    · exact key_ne_nop hi hkey
  · cases hkey

section
variable (hterm : ∀ b ∈ F.blocks, F.numUses b.terminator.id = 0)
include hterm

lemma PhiReads.ne_terminator (h : PhiReads F x b) (hb : b ∈ F.blocks) :
    (.inst b.terminator.id : InstructionId) ≠ .inst x := by
  intro heq
  apply h.numUses_ne_zero
  rw [← InstructionId.inst.inj heq]
  exact hterm b hb

lemma reads_of_gen (hn : Precedes F n b (i :: rest)) (hgen : .inst x ∈ (problem F).gen i.key) :
    Reads F x b (i :: rest) := by
  obtain ⟨b', hb', j, hj, hkey, hx⟩ | ⟨b', hb', hphi, hkey⟩ := mem_generated.mp hgen
  · rw [eq_of_precedes hb' hj hn hkey] at hx
    exact .operand hx
  · have hnext := hn.next
    rw [hkey] at hnext
    obtain ⟨rfl, rfl⟩ := hnext.unique (precedes_terminator hb')
    obtain ⟨c, hc, hsucc, _, hnode, hx⟩ := id hphi
    refine .next ?_ (.phi hc hsucc hnode hx)
    rw [hkey]
    exact hphi.ne_terminator hterm hb'

lemma reads_of_live (h : (problem F).Live n (.inst x)) (hn : Precedes F n b rest) : Reads F x b rest := by
  generalize hv : Value.inst x = v at h
  induction h generalizing b rest with
  | @gen m n v hedge hgen =>
    subst hv
    obtain ⟨c, -, b', -, -, rfl, -⟩ | ⟨b', i, _, hi, rfl⟩ := mem_edges.mp hedge
    · exact absurd hgen not_gen_nop
    · obtain ⟨rfl, rfl⟩ := hn.unique hi
      exact reads_of_gen hterm hi hgen
  | @keep m n v hedge _ hkill ih =>
    subst hv
    obtain ⟨c, hc, b', hb', hsucc, rfl, rfl⟩ | ⟨b', i, _, hi, rfl⟩ := mem_edges.mp hedge
    · obtain ⟨rfl, rfl⟩ := hn.unique (precedes_terminator hb')
      exact .jump hc hsucc (ih (precedes_nop hc) rfl)
    · obtain ⟨rfl, rfl⟩ := hn.unique hi
      have hreads := ih hi.next rfl
      refine .next (fun hkey => hkill (mem_killed.mpr ?_)) hreads
      have huses := hreads.numUses_ne_zero hi.1 hi.next.mem_instructions
      exact ⟨b, hi.1, i, hi.mem_withNop, x, hkey, huses, hkey, rfl⟩

end

lemma not_kill (hkey : n ≠ .inst x) : .inst x ∉ (problem F).kill n := by
  intro hkill
  obtain ⟨-, -, -, -, id, -, -, rfl, hx⟩ := mem_killed.mp hkill
  rw [Value.inst.inj hx] at hkey
  exact hkey rfl

lemma live_of_reads (h : Reads F x b rest) (hn : Precedes F n b rest) :
    (problem F).Live n (.inst x) ∨ (rest = [] ∧ PhiReads F x b) := by
  induction h generalizing n with
  | @operand b i rest hi =>
    have hgen : .inst x ∈ (problem F).gen i.key := mem_generated.mpr (.inl ⟨b, hn.1, i, hn.mem_withNop, rfl, hi⟩)
    exact .inl (.gen (mem_edges.mpr (.inr ⟨b, i, rest, hn, rfl⟩)) hgen)
  | @next b i rest hkey _ ih =>
    have hedge := mem_edges.mpr (.inr ⟨b, i, rest, hn, rfl⟩)
    obtain hlive | ⟨rfl, hphi⟩ := ih hn.next
    · exact .inl (.keep hedge hlive (not_kill hkey))
    · exact .inl (.gen hedge (mem_generated.mpr (.inr ⟨b, hn.1, hphi, hn.next.eq_terminator⟩)))
  | phi hc hsucc hnode hx => exact .inr ⟨rfl, _, hc, hsucc, _, hnode, hx⟩
  | @jump b c hc hsucc _ ih =>
    have hedge := mem_edges.mpr (.inl ⟨c, hc, b, hn.1, hsucc, rfl, hn.eq_terminator⟩)
    obtain hlive | ⟨hnil, -⟩ := ih (precedes_nop hc)
    · exact .inl (.keep hedge hlive (not_kill nofun))
    · exact absurd hnil instructions_ne_nil

lemma live_iff (hterm : ∀ b ∈ F.blocks, F.numUses b.terminator.id = 0) (hn : Precedes F n b rest) (hrest : rest ≠ []) :
    (problem F).Live n (.inst x) ↔ Reads F x b rest := by
  refine ⟨fun h => reads_of_live hterm h hn, fun h => ?_⟩
  exact (live_of_reads h hn).resolve_right fun hnil => hrest hnil.1

end

/-! ## The result -/

section
variable {F : Llvm.Function}

lemma mem_initializeWorklist (e : Edge) : e ∈ (initializeWorklist F).reverse ↔ e ∈ (problem F).edges e.1 := by
  rw [mem_reverse, initializeWorklist, mem_flatMap]
  constructor
  · rintro ⟨i, -, he⟩
    rw [← ((mem_predecessorEdges F).mp he).2] at he
    exact he
  · intro he
    obtain ⟨c, hc, b, -, -, hm, -⟩ | ⟨b, i, _, hn, hm⟩ := mem_edges.mp he
    · refine ⟨.nop c.id, mem_flatMap.mpr ⟨c, hc, mem_cons_self⟩, ?_⟩
      rw [Instruction.key, ← hm]
      exact he
    · refine ⟨i, mem_flatMap.mpr ⟨b, hn.1, hn.mem_withNop⟩, ?_⟩
      rw [← hm]
      exact he

lemma executeWorklist_exact : ∃ fuel0, ∀ fuel ≥ fuel0, ∃ live, executeWorklistAlgorithm F fuel = some live ∧
    ∀ n v, v ∈ live n ↔ (problem F).Live n v := by
  set W := (initializeWorklist F).reverse
  have hW : ∀ e, e ∈ W ↔ e ∈ (problem F).edges e.1 := mem_initializeWorklist
  let nodes := (W.map Prod.snd).toFinset
  let values := W.toFinset.biUnion fun e => (problem F).gen e.1
  let b := nodes.sup fun n => ((problem F).edges n).length
  have hnodes : ∀ e, e ∈ (problem F).edges e.1 → e.2 ∈ nodes := by
    intro e he
    exact mem_toFinset.mpr (mem_map_of_mem ((hW e).mpr he))
  have hvalues : ∀ e, e ∈ (problem F).edges e.1 → (problem F).gen e.1 ⊆ values := by
    intro e he
    exact Finset.subset_biUnion_of_mem (fun e => (problem F).gen e.1) (mem_toFinset.mpr ((hW e).mpr he))
  have hb : ∀ n ∈ nodes, ((problem F).edges n).length ≤ b := by
    intro n hn
    exact Finset.le_sup (f := fun n => ((problem F).edges n).length) hn
  refine ⟨W.length + (b + 1) * (nodes.card * values.card), fun fuel hfuel => ?_⟩
  exact Dataflow.Problem.run_exact hnodes hvalues hb hW hfuel

lemma mem_propagatePhiUse {live : InstructionId → Finset Value} {n : InstructionId} {v : Value} :
    v ∈ propagatePhiUseToLiveSet F live n ↔ v ∈ live n ∨
      (∃ b ∈ F.blocks, n = .inst b.terminator.id) ∧ v ∈ (problem F).gen n ∧ F.hasPhiUser v := by
  rw [propagatePhiUseToLiveSet]
  generalize F.blocks = blocks
  induction blocks generalizing live with
  | nil => simp
  | cons b blocks ih =>
    rw [foldl_cons, ih]
    by_cases hn : n = .inst b.terminator.id
    · subst hn
      rw [update_self, Finset.mem_union, Finset.mem_filter]
      simp only [mem_cons, exists_eq_or_imp, true_or, true_and]
      rw [or_assoc]
      refine or_congr_right ⟨?_, .inl⟩
      rintro (h | ⟨-, h⟩)
      · exact h
      · exact h
    · rw [update_of_ne hn]
      simp [hn]

/-! The sets are valid from the last PHI node on. -/

variable {P O : List Instruction} {i : Instruction} {b : BasicBlock} {valid : List (List InstructionId)}

lemma lastPhi_append (hP : ∀ j ∈ P, j.isPhi) (hO : ∀ j ∈ O, ¬ j.isPhi) :
    lastPhi i (P ++ O) = (i :: P).getLast (cons_ne_nil i P) := by
  induction P generalizing i with
  | nil =>
    cases O with
    | nil => rfl
    | cons j O => exact if_neg (hO j mem_cons_self)
  | cons j P ih =>
    rw [cons_append, lastPhi, if_pos (hP j mem_cons_self), ih fun k hk => hP k (mem_cons_of_mem j hk)]
    exact (getLast_cons (cons_ne_nil j P)).symm

lemma getLastPHIInstruction_append (hP : ∀ j ∈ P, j.isPhi) (hO : ∀ j ∈ O, ¬ j.isPhi) (hne : O ≠ [])
    : ∃ dropped first others, P ++ O = dropped ++ first :: others ∧ (∀ j ∈ others, ¬ j.isPhi) ∧
      (dropped = [] ∨ first.isPhi) ∧ getLastPHIInstruction (P ++ O) = some first := by
  obtain ⟨o, O', rfl⟩ := exists_cons_of_ne_nil hne
  have ho : o.isPhi = false := eq_false_of_ne_true (hO o mem_cons_self)
  have hO' : ∀ j ∈ O', ¬ j.isPhi := fun j hj => hO j (mem_cons_of_mem o hj)
  cases P with
  | nil =>
    refine ⟨[], o, O', rfl, hO', .inl rfl, ?_⟩
    cases O' with
    | nil => simp [getLastPHIInstruction, ho]
    | cons j rest =>
      have hj : j.isPhi = false := eq_false_of_ne_true (hO' j mem_cons_self)
      have hlast : lastPhi o (j :: rest) = o := if_neg (ne_true_of_eq_false hj)
      simp [getLastPHIInstruction, hj, hlast]
  | cons i P =>
    have hi : i.isPhi = true := hP i mem_cons_self
    have hlast := lastPhi_append (i := i) (fun j hj => hP j (mem_cons_of_mem i hj)) hO
    set last := (i :: P).getLast (cons_ne_nil i P) with hdef
    refine ⟨(i :: P).dropLast, last, o :: O', ?_, hO, .inr (hP last (getLast_mem _)), ?_⟩
    · rw [append_cons (i :: P).dropLast last, dropLast_append_getLast]
    · cases P with
      | nil =>
        rw [nil_append] at hlast
        simp [getLastPHIInstruction, hi, hlast]
      | cons j P =>
        rw [cons_append] at hlast
        simp [getLastPHIInstruction, hi, hlast]

lemma validInstructions_spec (hb : b ∈ F.blocks) : ∃ dropped first others,
    b.instructions = dropped ++ first :: others ∧ (∀ j ∈ others, ¬ j.isPhi) ∧ (dropped = [] ∨ first.isPhi) ∧
      validInstructions b = some ((first :: others).map Instruction.key) := by
  have hsplit : b.instructions = b.phis.map .phi ++ (b.body.map .operation ++ [.operation b.terminator]) :=
    append_assoc _ _ _
  have hphis : ∀ j ∈ b.phis.map Instruction.phi, j.isPhi := by
    intro j hj
    obtain ⟨_, -, rfl⟩ := mem_map.mp hj
    rfl
  have hothers : ∀ j ∈ b.body.map Instruction.operation ++ [.operation b.terminator], ¬ j.isPhi := by
    intro j hj
    rcases mem_append.mp hj with hj | hj
    · obtain ⟨op, -, rfl⟩ := mem_map.mp hj
      exact Bool.false_ne_true
    · rw [mem_singleton.mp hj]
      exact Bool.false_ne_true
  obtain ⟨dropped, first, others, happend, hnot, hfirst, hlast⟩ :=
    getLastPHIInstruction_append hphis hothers (append_ne_nil_of_right_ne_nil _ (cons_ne_nil _ _))
  rw [← hsplit] at happend hlast
  refine ⟨dropped, first, others, happend, hnot, hfirst, ?_⟩
  have hnodup := (nodup_cons.mp (nodup_withNop hb)).2
  rw [happend, map_append, nodup_append] at hnodup
  have hdropped : ∀ j ∈ dropped, decide (j.key ≠ first.key) = true := fun j hj =>
    decide_eq_true (hnodup.2.2 j.key (mem_map_of_mem hj) first.key mem_cons_self)
  rw [validInstructions, hlast, Option.bind_eq_bind, Option.bind_some, happend,
    dropWhile_append_of_pos hdropped, dropWhile_cons_of_neg]
  exact fun h => of_decide_eq_true h rfl

lemma mem_valid (hvalid : F.blocks.mapM validInstructions = some valid) (hb : b ∈ F.blocks)
    (hi : i ∈ b.instructions) {S : List Instruction} (hS : ∀ j ∈ S, j ∈ b.instructions)
    (hkeys : validInstructions b = some (S.map Instruction.key)) : i.key ∈ valid.flatten ↔ i ∈ S := by
  constructor
  · intro hmem
    obtain ⟨ks, hks, hkey⟩ := mem_flatten.mp hmem
    obtain ⟨b', hb', hvalid'⟩ := (mem_of_mapM hvalid).mp hks
    obtain ⟨dropped', _, _, happend', -, -, hkeys'⟩ := validInstructions_spec hb'
    have hj : ∃ j ∈ b'.instructions, j.key = i.key := by
      rw [Option.some.inj (hvalid'.symm.trans hkeys')] at hkey
      obtain ⟨j, hj, hji⟩ := mem_map.mp hkey
      exact ⟨j, happend' ▸ mem_append_right dropped' hj, hji⟩
    obtain ⟨j, hj, hji⟩ := hj
    obtain rfl := eq_of_key_eq hb' hb (mem_cons_of_mem _ hj) (mem_cons_of_mem _ hi) hji
    rw [Option.some.inj (hvalid'.symm.trans hkeys)] at hkey
    obtain ⟨j', hj', hji'⟩ := mem_map.mp hkey
    have hnodup := (nodup_cons.mp (nodup_withNop hb)).2
    rwa [← inj_on_of_nodup_map hnodup (hS j' hj') hi hji']
  · intro hmem
    exact mem_flatten.mpr ⟨_, (mem_of_mapM hvalid).mpr ⟨b, hb, hkeys⟩, mem_map_of_mem hmem⟩

lemma mem_valid_iff (hvalid : F.blocks.mapM validInstructions = some valid) (hb : b ∈ F.blocks)
    {pre rest : List Instruction} (hi : b.instructions = pre ++ i :: rest) :
    i.key ∈ valid.flatten ↔ ∀ j ∈ rest, ¬ j.isPhi := by
  obtain ⟨dropped, first, _, happend, hnot, hfirst, hkeys⟩ := validInstructions_spec hb
  have hmem : i ∈ b.instructions := hi ▸ mem_append_right pre mem_cons_self
  have hnodup := ((nodup_cons.mp (nodup_withNop hb)).2).of_map
  rw [mem_valid hvalid hb hmem (fun j hj => happend ▸ mem_append_right dropped hj) hkeys]
  have heq := hi.symm.trans happend
  obtain ⟨c, rfl, hrest⟩ | ⟨c, rfl, hothers⟩ := append_eq_append_iff.mp heq
  · cases c with
    | nil =>
      obtain ⟨rfl, rfl⟩ := cons.inj hrest
      exact iff_of_true mem_cons_self hnot
    | cons k c =>
      -- a PHI node follows
      obtain ⟨rfl, rfl⟩ := cons.inj hrest
      have hphi := hfirst.resolve_left (append_ne_nil_of_right_ne_nil pre (cons_ne_nil i c))
      refine iff_of_false (fun hin => ?_) fun h => h first (mem_append_right c mem_cons_self) hphi
      rw [happend, nodup_append] at hnodup
      exact hnodup.2.2 i (mem_append_right pre mem_cons_self) i hin rfl
  · refine iff_of_true (hothers ▸ mem_append_right c mem_cons_self) fun j hj => hnot j ?_
    cases c with
    | nil =>
      obtain ⟨-, rfl⟩ := cons.inj hothers
      exact hj
    | cons k c =>
      obtain ⟨-, rfl⟩ := cons.inj hothers
      exact mem_append_right c (mem_cons_of_mem i hj)

/-- The analysis ends with the registers that some path reads first; behind a terminator there may be more. -/
theorem liveRegisters_exact (F : Llvm.Function) (hterm : ∀ b ∈ F.blocks, F.numUses b.terminator.id = 0) :
    ∃ fuel₀, ∀ fuel ≥ fuel₀, ∃ pass, runOnFunction F fuel = some pass ∧ ∀ b ∈ F.blocks,
      (∀ x, .inst x ∈ pass.basicBlocks b.id ↔ Reads F x b b.instructions) ∧
      ∀ pre i rest, b.instructions = pre ++ i :: rest → (i.key ∈ pass.valid ↔ ∀ j ∈ rest, ¬ j.isPhi) ∧
        (rest ≠ [] → ∀ x, .inst x ∈ pass.live i.key ↔ Reads F x b rest) ∧
        (rest = [] → ∀ x, Reads F x b [] → .inst x ∈ pass.live i.key) := by
  obtain ⟨fuel₀, hfuel0⟩ := executeWorklist_exact
  refine ⟨fuel₀, fun fuel hfuel => ?_⟩
  obtain ⟨live, hrun, hlive⟩ := hfuel0 fuel hfuel
  have hvalid : ∃ valid, F.blocks.mapM validInstructions = some valid := by
    apply exists_mapM_eq_some
    intro b hb
    obtain ⟨_, _, _, -, -, -, hkeys⟩ := validInstructions_spec hb
    exact ⟨_, hkeys⟩
  obtain ⟨valid, hvalid⟩ := hvalid
  set live' := propagatePhiUseToLiveSet F live with hlive'
  refine ⟨{ live := live', basicBlocks := fun block => live' (.nop block), valid := valid.flatten }, ?_, fun b hb => ?_⟩
  · rw [runOnFunction, hrun, hvalid]
    rfl
  have hpoint : ∀ n rest, Precedes F n b rest → rest ≠ [] → ∀ x, .inst x ∈ live' n ↔ Reads F x b rest := by
    intro n rest hn hrest x
    rw [mem_propagatePhiUse, hlive, live_iff hterm hn hrest, or_iff_left]
    rintro ⟨⟨b', hb', rfl⟩, -⟩
    exact hrest (hn.unique (precedes_terminator hb')).2
  refine ⟨hpoint (.nop b.id) b.instructions (precedes_nop hb) instructions_ne_nil, fun pre i rest hi => ?_⟩
  have hn : Precedes F i.key b rest := ⟨hb, .nop b.id :: pre, i, by rw [BasicBlock.withNop, hi, cons_append], rfl⟩
  refine ⟨mem_valid_iff hvalid hb hi, hpoint i.key rest hn, ?_⟩
  rintro rfl x hreads
  rw [mem_propagatePhiUse, hlive]
  refine (live_of_reads hreads hn).imp_right ?_
  rintro ⟨-, hphi⟩
  refine ⟨⟨b, hb, hn.eq_terminator⟩, mem_generated.mpr (.inr ⟨b, hb, hphi, hn.eq_terminator⟩), ?_⟩
  exact hphi.hasPhiUser

def loopFunction : Llvm.Function where
  blocks :=
    [{ id := 0, phis := [], body := [⟨10, [.argument 0]⟩], terminator := ⟨11, []⟩, successors := [1] },
      { id := 1, phis := [⟨20, [(0, .inst 10), (1, .inst 21)]⟩], body := [⟨21, [.inst 20]⟩]
        terminator := ⟨22, [.inst 21]⟩, successors := [1, 2] },
      { id := 2, phis := [], body := [], terminator := ⟨30, [.inst 10]⟩, successors := [] }]
  blocks_nodup := by decide
  instructions_nodup := by decide
  incoming_pred := by decide

theorem liveRegisters_exact_loop : ∃ fuel pass, runOnFunction loopFunction fuel = some pass ∧
    .inst 10 ∈ pass.basicBlocks 1 ∧ .inst 20 ∉ pass.basicBlocks 1 := by
  obtain ⟨fuel, h⟩ := liveRegisters_exact loopFunction (by decide)
  obtain ⟨pass, hpass, hblocks⟩ := h fuel le_rfl
  have hread := (hblocks _ (mem_cons_of_mem _ mem_cons_self)).1
  refine ⟨fuel, pass, hpass, (hread 10).mpr ?_, fun h => ?_⟩
  · -- through the loop and behind it
    refine .next (by decide) (.next (by decide) (.next (by decide) ?_))
    refine .jump (mem_cons_of_mem _ (mem_cons_of_mem _ mem_cons_self)) (by decide) ?_
    exact .operand (by decide)
  · -- the PHI node defines it
    cases (hread 20).mp h with
    | operand hmem => cases hmem
    | next hkey => exact hkey rfl

end

end Klee.LiveRegister
