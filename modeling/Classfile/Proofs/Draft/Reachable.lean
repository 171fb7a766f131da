import Classfile.Proofs.Draft.Removal
import Classfile.Proofs.Draft.Wrapping

/-!
Drafts that come from nothing or from a stored method by editing. The pool that they share with
others grows meanwhile. Whatever is done to a draft, what it keeps can be stored.
-/
namespace Classfile

open InstructionSeq ConstantPool

variable {pool pool' : ConstantPool} {d e : MethodDraft}

namespace MethodDraft

/-- What a program can do to a draft and may be refused. -/
inductive Act : Type 1
  | addHandler (range : GuardedRange)
  | addLine (h : Handle) (line : UInt16)
  | addScope (name descriptor : String) (slot : UInt16) (first last : Handle)
  | addException (type : String)
  | addParameterAnnotation (parameter : Nat) (u : AnnotationUse)
  | addAttribute {α : Type} [Payload α] (payload : α)
  | removeInstruction (h : Handle)

def Act.perform : Act → MethodM Unit
  | .addHandler range => MethodM.addHandler range
  | .addLine h line => MethodM.addLine h line
  | .addScope name descriptor slot first last => MethodM.addScope name descriptor slot first last
  | .addException type => MethodM.addException type
  | Act.addParameterAnnotation parameter u => MethodM.addParameterAnnotation parameter u
  | @Act.addAttribute _ _ payload => MethodM.addAttribute payload
  | .removeInstruction h => discard (MethodM.removeInstruction h)

/-- The drafts that a program can get hold of, together with the pool as it is then. -/
inductive Reachable : ConstantPool → MethodDraft → Prop
  | make {pool : ConstantPool} {flags : AccessFlags .method} {name descriptor owner : String}
      {d : MethodDraft} (hp : pool.Reachable) (h : make flags name descriptor owner = .ok d) :
      Reachable pool d
  | ofMethod {pool : ConstantPool} {owner : String} {m : Method} {d : MethodDraft}
      (hp : pool.Reachable) (h : ofMethod pool owner m = .ok d) : Reachable pool d
  /-- Something else is added to the pool. -/
  | grow {pool pool' : ConstantPool} {c : Constant} {i : ConstantIndex} {d : MethodDraft}
      (hd : Reachable pool d) (h : PoolM.add c pool = .ok i pool') : Reachable pool' d
  | assign {pool : ConstantPool} {d : MethodDraft} (flags : AccessFlags .method) (name : String)
      (descriptor : MethodDescriptor) (owner : String) (maxStack maxLocals : UInt16)
      (hd : Reachable pool d) :
      Reachable pool { d with flags, name, descriptor, owner, maxStack, maxLocals }
  | assignInstructions {pool : ConstantPool} {d : MethodDraft} {instructions : InstructionSeq}
      (hd : Reachable pool d) (hs : instructions.Reachable) :
      Reachable pool { d with instructions }
  | edit {pool : ConstantPool} {d : MethodDraft} {edit : Edit} {instructions : InstructionSeq}
      (hd : Reachable pool d) (h : d.instructions.edit edit = .ok instructions)
      (hc : instructions.slots.size ≤ UInt32.size) : Reachable pool { d with instructions }
  | stripLines {pool : ConstantPool} {d : MethodDraft} (hd : Reachable pool d) :
      Reachable pool d.stripLines
  | stripScopes {pool : ConstantPool} {d : MethodDraft} (hd : Reachable pool d) :
      Reachable pool d.stripScopes
  | addAnnotation {pool : ConstantPool} {d : MethodDraft} (u : AnnotationUse)
      (hd : Reachable pool d) : Reachable pool (d.addAnnotation u)
  /-- An act is taken or refused, and the draft is what it leaves. -/
  | act {pool pool' : ConstantPool} {d e : MethodDraft} (hd : Reachable pool d) (a : Act)
      (h : a.perform.left (d, pool) = (e, pool')) : Reachable pool' e

theorem Reachable.perform {a : Act} (hd : Reachable pool d)
    (h : a.perform (d, pool) = .ok () (e, pool')) : Reachable pool' e :=
  hd.act a (EStateM.left_of_ok h)

theorem FitsPool.grows (h : FitsPool pool d) (hg : pool.Grows pool') : FitsPool pool' d where
  operands item hi operand ho := hg.checked (h.operands item hi operand ho)
  catchTypes range hr i hi := hg.checked (h.catchTypes range hr i hi)
  exceptions i hi := hg.checked (h.exceptions i hi)
  annotations u hu := AnnotationUse.check_grows hg (h.annotations u hu)
  parameterAnnotations u hu := AnnotationUse.check_grows hg (h.parameterAnnotations u hu)

/-! ### What every act keeps -/

/-- An act that is refused leaves the draft as it was. -/
theorem Act.atomic_perform (a : Act) : DraftM.Atomic a.perform := by
  cases a with
  | addHandler range => exact MethodM.atomic_addHandler range
  | addLine h line => exact MethodM.atomic_addLine h line
  | addScope name descriptor slot first last =>
    exact MethodM.atomic_addScope name descriptor slot first last
  | addException type => exact MethodM.atomic_addException type
  | addParameterAnnotation parameter u => exact MethodM.atomic_addParameterAnnotation parameter u
  | addAttribute payload => exact MethodM.atomic_addAttribute payload
  | removeInstruction h => exact (MethodM.atomic_removeInstruction h).discard

theorem Act.maintains_perform {P : ConstantPool → Prop}
    (hadd : ∀ c, EStateM.Maintains P (PoolM.add c)) (a : Act) :
    EStateM.Maintains (fun s => P s.2) a.perform := by
  cases a with
  | addHandler range => exact MethodM.maintains_addHandler range
  | addLine h line => exact MethodM.maintains_addLine h line
  | addScope name descriptor slot first last =>
    exact MethodM.maintains_addScope hadd name descriptor slot first last
  | addException type => exact MethodM.maintains_addException hadd type
  | addParameterAnnotation parameter u =>
    exact MethodM.maintains_addParameterAnnotation parameter u
  | addAttribute payload => exact MethodM.maintains_addAttribute hadd payload
  | removeInstruction h => exact (MethodM.maintains_removeInstruction h).discard

theorem kept_addScope {name descriptor : String} {slot : UInt16} {first last : Handle}
    (hp : pool.Coherent) (hk : Kept pool d)
    (h : MethodM.addScope name descriptor slot first last (d, pool) = .ok () (e, pool')) :
    pool'.Coherent ∧ Kept pool' e := by
  obtain ⟨-, n, mid, hn, t, _, ht, h⟩ := MethodM.addScope_eq_ok.mp h
  cases h
  obtain ⟨hm, hg, hn⟩ := PoolM.addText_eq_ok hp hn
  obtain ⟨hp', hg', ht⟩ := PoolM.addText_eq_ok hm ht
  have hk := hk.grows (hg.trans hg')
  refine ⟨hp', hk.linked, ?_, hk.codeAttributes, hk.attributes⟩
  intro scope hs
  rw [List.append_assoc, List.mem_append, List.singleton_append, List.mem_cons] at hs
  rcases hs with hs | rfl | hs
  · exact hk.scopes scope (List.mem_append_left _ hs)
  · exact ⟨⟨name, hg'.text hn⟩, descriptor, ht⟩
  · exact hk.scopes scope (List.mem_append_right _ hs)

theorem kept_addException {type : String} (hp : pool.Coherent) (hk : Kept pool d)
    (h : MethodM.addException type (d, pool) = .ok () (e, pool')) :
    pool'.Coherent ∧ Kept pool' e := by
  obtain ⟨i, _, hi, h⟩ := MethodM.addException_eq_ok.mp h
  cases h
  obtain ⟨hp', hg⟩ := PoolM.addTypeName_eq_ok hp hi
  have hk := hk.grows hg
  split
  · exact ⟨hp', hk⟩
  · exact ⟨hp', hk.linked, hk.scopes, hk.codeAttributes, hk.attributes⟩

theorem kept_addAttribute {α : Type} [Payload α] {p : α} (hp : pool.Coherent) (hk : Kept pool d)
    (h : MethodM.addAttribute p (d, pool) = .ok () (e, pool')) :
    pool'.Coherent ∧ Kept pool' e := by
  obtain ⟨a, _, ha, h⟩ := MethodM.addAttribute_eq_ok.mp h
  cases h
  obtain ⟨hp', hg, hn⟩ := PoolM.addText_eq_ok hp (PoolM.addAttribute_iff.mp ha).1
  have hk := hk.grows hg
  refine ⟨hp', hk.linked, hk.scopes, hk.codeAttributes, ?_⟩
  intro b hb
  rcases List.mem_append.mp hb with hb | hb
  · exact hk.attributes b hb
  · cases List.mem_singleton.mp hb
    exact ⟨_, hn⟩

/-- Taking an instruction out makes ranges shorter, and says nothing else of their variables. -/
theorem kept_removeInstruction {target : Handle} {i : Instruction Handle} (hk : Kept pool d)
    (h : MethodM.removeInstruction target (d, pool) = .ok i (e, pool')) : Kept pool e := by
  obtain ⟨-, -, hr, he⟩ := removeInstruction_eq_ok h
  refine ⟨linked_remove hk.linked hr, ?_, ?_, ?_⟩
  · intro scope hs
    rw [he, ← List.filterMap_append] at hs
    obtain ⟨old, ho, hs⟩ := List.mem_filterMap.mp hs
    obtain ⟨ends, -, rfl⟩ := Option.map_eq_some_iff.mp hs
    exact hk.scopes old ho
  · rw [he]
    exact hk.codeAttributes
  · rw [he]
    exact hk.attributes

theorem kept_perform {a : Act} (hp : pool.Coherent) (hk : Kept pool d)
    (h : a.perform (d, pool) = .ok () (e, pool')) : pool'.Coherent ∧ Kept pool' e := by
  cases a with
  | addHandler range =>
    obtain ⟨-, h⟩ := MethodM.addHandler_eq_ok.mp h
    cases h
    exact ⟨hp, hk.linked, hk.scopes, hk.codeAttributes, hk.attributes⟩
  | addLine h' line =>
    obtain ⟨-, h⟩ := MethodM.addLine_eq_ok.mp h
    cases h
    exact ⟨hp, hk.linked, hk.scopes, hk.codeAttributes, hk.attributes⟩
  | addScope name descriptor slot first last => exact kept_addScope hp hk h
  | addException type => exact kept_addException hp hk h
  | addParameterAnnotation parameter u =>
    obtain ⟨_, h⟩ := MethodM.addParameterAnnotation_eq_ok h
    cases h
    exact ⟨hp, hk.linked, hk.scopes, hk.codeAttributes, hk.attributes⟩
  | addAttribute payload => exact kept_addAttribute hp hk h
  | removeInstruction target =>
    obtain ⟨i, h⟩ := EStateM.discard_eq_ok.mp h
    obtain rfl := (removeInstruction_eq_ok h).1
    exact ⟨hp, kept_removeInstruction hk h⟩

theorem kept_act {a : Act} (hp : pool.Coherent) (hk : Kept pool d)
    (h : a.perform.left (d, pool) = (e, pool')) : pool'.Coherent ∧ Kept pool' e := by
  cases hr : a.perform (d, pool) with
  | ok u s =>
    obtain rfl := (EStateM.left_of_ok hr).symm.trans h
    exact kept_perform hp hk hr
  | error fault s =>
    obtain rfl := (EStateM.left_of_error hr).symm.trans h
    obtain rfl : e = d := a.atomic_perform hr
    have hadd : ∀ c, EStateM.Maintains (fun p => p.Coherent ∧ pool.Grows p) (PoolM.add c) :=
      PoolM.maintains_add fun hp h =>
        ⟨(PoolM.coherent_add hp.1 h).1, hp.2.trans (PoolM.coherent_add hp.1 h).2.1⟩
    obtain ⟨hp', hg⟩ := (a.maintains_perform hadd).of_error hr ⟨hp, .refl pool⟩
    exact ⟨hp', hk.grows hg⟩

theorem Reachable.kept (h : Reachable pool d) : pool.Coherent ∧ Kept pool d := by
  induction h with
  | make hp h => exact ⟨hp.coherent, (valid_make h).1.kept⟩
  | ofMethod hp h => exact ⟨hp.coherent, (valid_ofMethod h).1.kept⟩
  | grow _ h ih =>
    obtain ⟨hp', hg, -⟩ := PoolM.coherent_add ih.1 h
    exact ⟨hp', ih.2.grows hg⟩
  | assign _ _ _ _ _ _ _ ih =>
    exact ⟨ih.1, ih.2.linked, ih.2.scopes, ih.2.codeAttributes, ih.2.attributes⟩
  | assignInstructions _ hs ih =>
    exact ⟨ih.1, hs.linked, ih.2.scopes, ih.2.codeAttributes, ih.2.attributes⟩
  | edit _ h hc ih =>
    exact ⟨ih.1, linked_edit ih.2.linked h hc, ih.2.scopes, ih.2.codeAttributes, ih.2.attributes⟩
  | stripLines _ ih =>
    exact ⟨ih.1, ih.2.linked, ih.2.scopes, ih.2.codeAttributes, ih.2.attributes⟩
  | stripScopes _ ih =>
    exact ⟨ih.1, ih.2.linked, by simp [MethodDraft.stripScopes], ih.2.codeAttributes,
      ih.2.attributes⟩
  | addAnnotation _ _ ih =>
    exact ⟨ih.1, ih.2.linked, ih.2.scopes, ih.2.codeAttributes, ih.2.attributes⟩
  | act _ a h ih => exact kept_act ih.1 ih.2 h

end MethodDraft

end Classfile
