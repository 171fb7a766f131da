import Classfile.Proofs.Code.Reencoding
import Classfile.Proofs.Draft.Wrapping

/-!
A method that was built from a draft of a stored method is in normal form: the draft of it is built
to the same method again. All that a draft needs when it is built is in the pool already.
-/
namespace Classfile

open InstructionSeq ConstantPool

variable {pool pool' : ConstantPool} {d e : MethodDraft} {s : InstructionSeq}
  {wide : Std.HashSet Handle} {bytes : List UInt8} {owner : String} {m r : Method}
  {attributes : List Attribute}

namespace InstructionSeq

/-- The code of a sequence is that of what is read back from it, where everything has its place. -/
structure Rewritten (s : InstructionSeq) (wide : Std.HashSet Handle) (bytes : List UInt8) :
    Prop where
  before : s.Written wide bytes
  after : s.readBack.instructions.Written ∅ bytes
  startAt : ∀ n ≤ s.toList.length, s.readBack.instructions.startAt ∅ n = s.startAt wide n

theorem exists_rewritten (hs : s.Linked) (h : s.encode = .ok bytes) :
    ∃ wide, s.Rewritten wide bytes := by
  obtain ⟨wide, hl, hj⟩ := Layout.exists_widening s
  obtain ⟨hlen, hroom⟩ := length_encode hs hl hj h
  obtain ⟨hl', -⟩ := readBack_written hs h
  have hcode : (Layout.widening s wide).codeLength ≤ maxCodeLength := by
    rwa [← startAt_length, ← hlen]
  have hc : s.toList.length ≤ UInt32.size := length_le_size hcode
  have hsize : s.readBack.instructions.toList.length = s.toList.length := size_readBack
  have hstart : ∀ n ≤ s.toList.length, s.readBack.instructions.startAt ∅ n = s.startAt wide n :=
    fun n hn => startAt_readBack hs hl hj hn
  refine ⟨wide, ⟨hs, hl, hlen, hroom⟩, ⟨linked_readBack hs hc, hl', ?_, hroom⟩, hstart⟩
  rw [hsize, hstart _ (Nat.le_refl _), hlen]

namespace Rewritten

open MethodDraft

theorem position? (hw : s.Rewritten wide bytes) {h : Handle} {n : Nat}
    (hp : s.position? h = some n) :
    s.readBack.instructions.position? (s.renumber h) = some n :=
  position?_readBack hw.before.linked hw.after.linked hp

theorem storedHandler (hw : s.Rewritten wide bytes) {range : GuardedRange}
    (hr : s.Spans range.first range.last) (hh : s.contains range.handler) :
    MethodDraft.storedHandler s.readBack.instructions.layout (range.relocate s.renumber) =
      MethodDraft.storedHandler s.layout range := by
  obtain ⟨n, m, hf, hl, -⟩ := hr
  obtain ⟨k, hk⟩ := exists_position? hw.before.linked hh
  have hb := hw.before.storedHandler_eq hf hl hk
  have ha : MethodDraft.storedHandler _ (range.relocate s.renumber) = _ :=
    hw.after.storedHandler_eq (hw.position? hf) (hw.position? hl) (hw.position? hk)
  rw [hw.startAt n (Nat.le_of_lt (Written.position_lt hf)),
    hw.startAt (m + 1) (Written.position_lt hl),
    hw.startAt k (Nat.le_of_lt (Written.position_lt hk))] at ha
  exact ha.trans hb.symm

theorem storedLine (hw : s.Rewritten wide bytes) {line : Handle × UInt16}
    (hh : s.contains line.1) :
    MethodDraft.storedLine s.readBack.instructions.layout (s.renumber line.1, line.2) =
      MethodDraft.storedLine s.layout line := by
  obtain ⟨k, hk⟩ := exists_position? hw.before.linked hh
  have hb := hw.before.startOffset hk
  have ha := hw.after.startOffset (hw.position? hk)
  rw [hw.startAt k (Nat.le_of_lt (Written.position_lt hk)), ← hb] at ha
  rw [MethodDraft.storedLine, ha]
  rfl

theorem storedScope (hw : s.Rewritten wide bytes) {scope : VariableScope}
    (hr : s.Spans scope.first scope.last) :
    MethodDraft.storedScope s.readBack.instructions.layout (scope.relocate s.renumber) =
      MethodDraft.storedScope s.layout scope := by
  obtain ⟨n, m, hf, hl, -⟩ := hr
  have hb := hw.before.storedScope_eq hf hl
  have ha : MethodDraft.storedScope _ (scope.relocate s.renumber) = _ :=
    hw.after.storedScope_eq (hw.position? hf) (hw.position? hl)
  rw [hw.startAt n (Nat.le_of_lt (Written.position_lt hf)),
    hw.startAt (m + 1) (Written.position_lt hl)] at ha
  exact ha.trans hb.symm

end Rewritten

end InstructionSeq

namespace MethodDraft

/-! ### The draft that was read back is built to the same -/

theorem buildCode_withCodeOf (hk : d.instructions.Linked) (ht : TablesFit d)
    (h : d.instructions.encode = .ok bytes) : (e.withCodeOf d).buildCode = d.buildCode := by
  obtain ⟨wide, hw⟩ := exists_rewritten hk h
  have hcode : d.instructions.readBack.instructions.encodeIn
      d.instructions.readBack.instructions.layout =
        d.instructions.encodeIn d.instructions.layout :=
    (readBack_written hk h).2.trans h.symm
  have hhandlers : (d.handlers.map (·.relocate d.instructions.renumber)).mapM
      (storedHandler d.instructions.readBack.instructions.layout) =
        d.handlers.mapM (storedHandler d.instructions.layout) := by
    rw [List.mapM_map]
    exact Except.mapM_congr fun range hr =>
      hw.storedHandler (ht.handlers range hr).1 (ht.handlers range hr).2
  have hlines : (d.lines.toList.map fun line => (d.instructions.renumber line.1, line.2)).mapM
      (storedLine d.instructions.readBack.instructions.layout) =
        d.lines.toList.mapM (storedLine d.instructions.layout) := by
    rw [List.mapM_map]
    exact Except.mapM_congr fun line hl => hw.storedLine (ht.lines line hl)
  have hscopes : ∀ scopes : List VariableScope, (∀ scope ∈ scopes,
      d.instructions.Spans scope.first scope.last) →
        (scopes.map (·.relocate d.instructions.renumber)).mapM
          (storedScope d.instructions.readBack.instructions.layout) =
            scopes.mapM (storedScope d.instructions.layout) := by
    intro scopes hs
    rw [List.mapM_map]
    exact Except.mapM_congr fun scope hm => hw.storedScope (hs scope hm)
  unfold buildCode
  simp only [withCodeOf]
  rw [hcode, hhandlers, hlines, hscopes d.scopes fun scope hm => ht.scopes scope (by simp [hm]),
    hscopes d.typeScopes fun scope hm => ht.scopes scope (by simp [hm])]

theorem isEmpty_readBack : s.readBack.instructions.isEmpty = s.isEmpty := by
  have hs : s.readBack.instructions.items.size = s.items.size := size_readBack
  rw [InstructionSeq.isEmpty, InstructionSeq.isEmpty, Array.isEmpty, Array.isEmpty, hs]

theorem addCode_restored (hk : d.instructions.Linked) (ht : TablesFit d)
    (hs : StoresInstructions pool d attributes) : d.restored.addCode = d.addCode := by
  unfold StoresInstructions at hs
  unfold addCode restored
  split at hs
  · rename_i he
    rw [he]
    rfl
  · rename_i he
    obtain ⟨a, body, -, -, hs⟩ := hs
    have hb : ({ d.withCodeOf d with
        annotations := byVisibility d.annotations
        parameterAnnotations := parametersByVisibility d.parameterAnnotations } :
          MethodDraft).buildCode = (d.withCodeOf d).buildCode := rfl
    rw [if_neg he, if_neg he, hb, buildCode_withCodeOf hk ht hs.code, if_neg]
    exact fun h => he (isEmpty_readBack.symm.trans h)

theorem restored_annotations : d.restored.annotations = byVisibility d.annotations ∧
    d.restored.parameterAnnotations = parametersByVisibility d.parameterAnnotations :=
  ⟨rfl, rfl⟩

theorem restored_others : d.restored.head = d.head ∧ d.restored.exceptions = d.exceptions ∧
    d.restored.attributes = d.attributes := by
  unfold restored
  split <;> exact ⟨rfl, rfl, rfl⟩

theorem build_restored (hv : Valid pool d) (hs : Stores pool' d r) :
    d.restored.build = d.build := by
  obtain ⟨code, exceptions, annotations, parameterAnnotations, hc, -⟩ := hs.attributes
  obtain ⟨hhead, hexceptions, hattributes⟩ := restored_others (d := d)
  simp only [head, Prod.mk.injEq] at hhead
  obtain ⟨hflags, hname, hdescriptor, -⟩ := hhead
  rw [build_eq, build_eq, addCode_restored hv.kept.linked hv.tables hc, hflags, hname, hdescriptor,
    hexceptions, hattributes, restored_annotations.1, restored_annotations.2,
    PoolM.addAnnotations_byVisibility, PoolM.addParameterAnnotations_byVisibility]

/-! ### Nothing is added to the pool -/

theorem keeps_addTable {α β : Type} [Payload β] {make : List α → β}
    {entries : Except Fault (List α)} (hp : pool.Faithful)
    (ht : ∀ es, entries = .ok es → ∀ x ∈ es, pool.Held (Payload.name β)) :
    PoolM.Keeps pool (addTable make entries) := by
  intro attributes pool' h
  obtain ⟨es, mid, ha, h⟩ := EStateM.bind_eq_ok.mp h
  obtain ⟨he, rfl⟩ := PoolM.ask_eq_ok.mp ha
  cases es with
  | nil => exact PoolM.keeps_pure _ h
  | cons x es =>
    have hn := ht _ he x List.mem_cons_self
    exact ((PoolM.keeps_addAttribute hp hn).bind fun a => PoolM.keeps_pure _) h

theorem keeps_buildCode (hp : pool.Faithful) (hn : NamesHeld pool d) :
    PoolM.Keeps pool d.buildCode := by
  have hmem : ∀ {α β : Type} {f : α → Except Fault β} {xs : List α} {name : String},
      (∀ x ∈ xs, pool.Held name) → ∀ es, xs.mapM f = .ok es → ∀ y ∈ es, pool.Held name := by
    intro α β f xs name hx es he y hy
    obtain ⟨x, hm, -⟩ := Except.exists_of_mem_mapM he hy
    exact hx x hm
  refine PoolM.keeps_ask.bind fun _ => PoolM.keeps_ask.bind fun _ => ?_
  refine (keeps_addTable hp (hmem hn.lines)).bind fun _ => ?_
  refine (keeps_addTable hp (hmem hn.scopes)).bind fun _ => ?_
  refine (keeps_addTable hp (hmem hn.typeScopes)).bind fun _ => ?_
  exact PoolM.keeps_ask.bind fun _ => PoolM.keeps_pure _

theorem keeps_addCode (hp : pool.Faithful) (hn : NamesHeld pool d) :
    PoolM.Keeps pool d.addCode := by
  unfold addCode
  split
  · exact PoolM.keeps_pure _
  · rename_i he
    refine (keeps_buildCode hp hn).bind fun body => ?_
    have hc := hn.code (Bool.eq_false_iff.mpr he)
    exact (PoolM.keeps_addAttribute hp hc).bind fun a => PoolM.keeps_pure _

theorem keeps_build (hp : pool.Faithful) (hn : NamesHeld pool d) (hname : pool.Held d.name)
    (hdescriptor : pool.Held d.descriptor.describe) : PoolM.Keeps pool d.build := by
  rw [build_eq]
  refine (PoolM.keeps_addText hp hname).bind fun _ => ?_
  refine (PoolM.keeps_addText hp hdescriptor).bind fun _ => ?_
  refine (keeps_addCode hp hn).bind fun _ => ?_
  refine (PoolM.keeps_addUnless hp fun he => ?_).bind fun _ => ?_
  · obtain ⟨i, hi⟩ := List.exists_mem_of_ne_nil d.exceptions (by simpa using he)
    exact hn.exceptions i hi
  · refine (PoolM.keeps_addAnnotations hp hn.annotations).bind fun _ => ?_
    exact (PoolM.keeps_addParameterAnnotations hp hn.parameterAnnotations).bind fun _ =>
      PoolM.keeps_pure _

/-- A method that was built from a draft of a stored one needs nothing new in the pool, has the name
and the descriptor of that one, and is built again from its own draft. -/
theorem build_ofMethod (hp : pool.Coherent) (hd : ofMethod pool owner m = .ok d)
    (h : d.build pool = .ok r pool') : pool' = pool ∧
      (∃ e, ofMethod pool owner r = .ok e ∧ e.build pool = .ok r pool) ∧
        pool.text r.name = pool.text m.name ∧ pool.text r.descriptor = pool.text m.descriptor := by
  obtain ⟨hv, -, rfl, hname, hdescriptor⟩ := valid_ofMethod hd
  cases keeps_build hp.faithful hv.names ⟨_, hname⟩ ⟨_, hdescriptor⟩ h
  obtain ⟨-, -, hs⟩ := stores_of_build hp.faithful h
  refine ⟨rfl, ⟨d.restored, ?_, ?_⟩, hs.name.trans hname.symm, hs.descriptor.trans hdescriptor.symm⟩
  · exact ofMethod_of_stores hp hs hv.kept hv.tables hv.fits hv.attributes hv.descriptor
  · rw [build_restored hv hs]
    exact h

end MethodDraft

end Classfile
