import Classfile.Proofs.Draft.Frame
import Classfile.Proofs.Pool.Distinct
import Classfile.Proofs.Pool.Refusals

/-!
The interfaces of a class. They are kept as indices, and a name that is added is compared with them
by the index that the pool finds for it. In a pool that holds something twice, as a given table can,
this need not be the index that the class has, and then the name is there twice.
-/
namespace Classfile

open ConstantPool

variable {d e start : ClassDraft} {pool pool' : ConstantPool} {fault : Fault} {name : String}
  {names : List String} {i : ConstantIndex}

/-! ### Classes without repeated constants -/

namespace ClassDraft

/-- The class is new, or that of an image none of whose constants is there twice. -/
inductive Undoubled : ClassDraft → Prop
  | make {version : Version} {flags : AccessFlags .type} {name : String}
      {superName : Option String} {interfaces : List String} {d : ClassDraft}
      (h : make version flags name superName interfaces = .ok d) : Undoubled d
  | ofImage {c : ClassImage} {first : Nat} {constants : List Constant} {d : ClassDraft}
      (hc : c.constants = WidthTable.ofList first constants) (hn : constants.Nodup)
      (h : ofImage c = .ok d) : Undoubled d

/-- What becomes of a class that keeps its pool. -/
inductive Evolves (start : ClassDraft) : ClassDraft → Prop
  | start : Evolves start start
  | edit {d : ClassDraft} (hd : Evolves start d) (edit : Edit) : Evolves start (d.after edit)
  | assign {d : ClassDraft} (hd : Evolves start d) (version : Version) (flags : AccessFlags .type) :
      Evolves start { d with version, flags }
  | request {d : ClassDraft} (hd : Evolves start d) (r : Request) :
      Evolves start { d with pool := d.pool.after r }

theorem Undoubled.unrepeated (h : d.Undoubled) : d.pool.Unrepeated := by
  cases h with
  | make h => exact make_invariant Unrepeated.add distinct_empty.unrepeated h
  | ofImage hc hn h => exact unrepeated_ofTable hn (hc ▸ (ofImage_eq_ok.mp h).pool)

theorem Evolves.unrepeated (h : start.Evolves d) (hs : start.pool.Unrepeated) :
    d.pool.Unrepeated := by
  induction h with
  | start => exact hs
  | edit _ edit ih => exact after_invariant Unrepeated.add edit ih
  | assign _ _ _ ih => exact ih
  | request _ r ih => exact ConstantPool.after_invariant Unrepeated.add r ih

end ClassDraft

/-! ### Adding a name -/

namespace PoolM

theorem addTypeName_of_lookup (h : pool.lookupTypeName name = some i) :
    addTypeName name pool = .ok i pool := by
  obtain ⟨j, hj, hi⟩ := Option.bind_eq_some_iff.mp h
  exact EStateM.bind_eq_ok.mpr ⟨j, pool, add_of_lookup hj, add_of_lookup hi⟩

theorem lookupTypeName_of_add (h : addTypeName name pool = .ok i pool') :
    pool'.lookupTypeName name = some i := by
  obtain ⟨j, mid, hj, hi⟩ := EStateM.bind_eq_ok.mp h
  exact Option.bind_eq_some_iff.mpr ⟨j, lookup_add (lookup_of_add hj) hi, lookup_of_add hi⟩

theorem faithful_addTypeName (hp : pool.Faithful) (h : addTypeName name pool = .ok i pool') :
    pool'.Faithful ∧ pool.Grows pool' ∧ pool'.typeName i = .ok name := by
  obtain ⟨j, mid, hj, hi⟩ := EStateM.bind_eq_ok.mp h
  obtain ⟨hm, hg, hj⟩ := faithful_add hp hj
  obtain ⟨hp', hg', hi⟩ := faithful_add hm hi
  exact ⟨hp', hg.trans hg', typeName_eq_ok.mpr ⟨j, hi, hg' hj⟩⟩

/-- An index that was that of a type before is found, and has the name that is added. -/
theorem lookupTypeName_of_readable {other : String} (hp : pool.Faithful)
    (h : addTypeName name pool = .ok i pool') (hi : pool.typeName i = .ok other) :
    pool.lookupTypeName name = some i := by
  obtain ⟨j, hti, htj⟩ := typeName_eq_ok.mp hi
  obtain ⟨k, mid, hk, hi⟩ := EStateM.bind_eq_ok.mp h
  obtain ⟨hm, hg, hnk⟩ := faithful_add hp hk
  obtain ⟨-, hg', hni⟩ := faithful_add hm hi
  -- both read the same constant at the index, so the text was there as well
  cases (hg' (hg hti)).symm.trans hni
  cases (hg htj).symm.trans hnk
  obtain ⟨l, hl⟩ := hp.lookup_get htj
  cases (add_of_lookup hl).symm.trans hk
  obtain ⟨m, hm⟩ := hp.lookup_get hti
  cases (add_of_lookup hm).symm.trans hi
  exact Option.bind_eq_some_iff.mpr ⟨j, hl, hm⟩

end PoolM

namespace ClassDraft

/-- The index that the pool finds for the name is that of one of the interfaces. -/
def Lists (d : ClassDraft) (name : String) : Prop :=
  ∃ i ∈ d.interfaces, d.pool.lookupTypeName name = some i

theorem addInterface_of_lists (h : d.Lists name) : ClassM.addInterface name d = .ok () d := by
  obtain ⟨i, hm, hi⟩ := h
  refine ClassM.onPool_modify_eq_ok.mpr ⟨i, d.pool, PoolM.addTypeName_of_lookup hi, ?_⟩
  rw [if_pos (List.contains_iff_mem.mpr hm)]

theorem lists_of_addInterface (h : ClassM.addInterface name d = .ok () e) : e.Lists name := by
  obtain ⟨i, pool, hi, rfl⟩ := ClassM.onPool_modify_eq_ok.mp h
  have hi := PoolM.lookupTypeName_of_add hi
  split
  · rename_i hm
    exact ⟨i, List.contains_iff_mem.mp hm, hi⟩
  · exact ⟨i, List.mem_append_right _ List.mem_cons_self, hi⟩

theorem interfaceNames_grows (hg : d.pool.Grows pool) (hn : d.interfaceNames = .ok names) :
    d.interfaces.mapM pool.typeName = .ok names :=
  Except.within_mapM hg.within_typeName d.interfaces hn

theorem interfaceNames_addInterface (hp : d.pool.Faithful) (hn : d.interfaceNames = .ok names)
    (hl : ¬ d.Lists name) (h : ClassM.addInterface name d = .ok () e) :
    e.interfaceNames = .ok (names ++ [name]) := by
  obtain ⟨i, pool, hi, rfl⟩ := ClassM.onPool_modify_eq_ok.mp h
  obtain ⟨-, hg, hname⟩ := PoolM.faithful_addTypeName hp hi
  have hnew : ¬ d.interfaces.contains i = true := by
    intro hm
    have hm := List.contains_iff_mem.mp hm
    obtain ⟨other, ho⟩ := Except.exists_of_mapM hn hm
    exact hl ⟨i, hm, PoolM.lookupTypeName_of_readable hp hi ho⟩
  have hold := interfaceNames_grows hg hn
  rw [if_neg hnew]
  exact Except.mapM_append hold (Except.mapM_eq_ok.mpr (.cons hname .nil))

theorem interfaceNames_of_error (hp : d.pool.Regular) (hn : d.interfaceNames = .ok names)
    (h : ClassM.addInterface name d = .error fault e) : e.interfaceNames = .ok names := by
  have h : (Edit.addInterface name).perform d = .error fault e := h
  obtain ⟨pool, hpool, rfl⟩ := grown_of_perform h
  have hold := interfaceNames_grows (hpool hp).2 hn
  exact hold

/-- Where nothing is there twice, the only index with the name is found. -/
theorem lists_of_unrepeated (hp : d.pool.Unrepeated) (hn : d.interfaceNames = .ok names)
    (hm : name ∈ names) : d.Lists name := by
  obtain ⟨i, hi, hname⟩ := Except.exists_of_mem_mapM hn hm
  exact ⟨i, hi, hp.lookupTypeName_iff.mpr hname⟩

/-- A name that is there is not added again if the index that the pool finds for it is there, as it
always is in a class that began without repeated constants. If it is not, the name is there once
more afterwards, and is not added again from then on. Where that fails the names are as before. -/
theorem addInterface_of_mem (hd : d.Reachable) (hn : d.interfaceNames = .ok names)
    (hm : name ∈ names) :
    (∀ start : ClassDraft, start.Undoubled → start.Evolves d → d.Lists name) ∧
    (d.Lists name → ClassM.addInterface name d = .ok () d) ∧
    (¬ d.Lists name → ∀ e, ClassM.addInterface name d = .ok () e →
      e.interfaceNames = .ok (names ++ [name]) ∧ ClassM.addInterface name e = .ok () e) ∧
    ∀ fault e, ClassM.addInterface name d = .error fault e → e.interfaceNames = .ok names := by
  have hp := hd.faithful
  refine ⟨fun start hs he => ?_, addInterface_of_lists, fun hl e h => ⟨?_, ?_⟩, fun fault e h => ?_⟩
  · exact lists_of_unrepeated (he.unrepeated hs.unrepeated) hn hm
  · exact interfaceNames_addInterface hp hn hl h
  · exact addInterface_of_lists (lists_of_addInterface h)
  · exact interfaceNames_of_error hp.regular hn h

end ClassDraft

namespace ClassImage

open ClassDraft

/-- A class `A` with the interface `I` at the given index, and with more constants than it needs. -/
def withInterface (more : List Constant) (i : ConstantIndex) : ClassImage where
  version := ⟨52, 0⟩
  constants := WidthTable.ofList 1
    ([.utf8 "A", .typeName ⟨1⟩, .utf8 "I", .typeName ⟨3⟩] ++ more)
  flags := .ofBits .type 0x0021
  thisClass := ⟨2⟩
  superClass := none
  interfaces := [i]
  fields := []
  methods := []
  attributes := []

/-- The draft of the class. -/
def withInterfaceDraft (more : List Constant) (i : ConstantIndex) : ClassDraft where
  version := ⟨52, 0⟩
  flags := .ofBits .type 0x0021
  pool := ⟨(withInterface more i).constants,
    (withInterface more i).constants.toList.foldl remember ∅⟩
  thisClass := ⟨2⟩
  superClass := none
  interfaces := [i]
  fields := []
  methods := []
  annotations := []
  attributes := []

theorem lookupTypeName_withInterface :
    (withInterfaceDraft [] ⟨4⟩).pool.lookupTypeName "I" = some ⟨4⟩ ∧
    (withInterfaceDraft [.typeName ⟨3⟩] ⟨5⟩).pool.lookupTypeName "I" = some ⟨4⟩ := by
  have hone : ofTable (withInterface [] ⟨4⟩).constants = .ok (withInterfaceDraft [] ⟨4⟩).pool := rfl
  have htwo : ofTable (withInterface [.typeName ⟨3⟩] ⟨5⟩).constants =
    .ok (withInterfaceDraft [.typeName ⟨3⟩] ⟨5⟩).pool := rfl
  simp only [lookupTypeName, lookupText, lookup_ofTable hone, lookup_ofTable htwo]
  decide

theorem addInterface_twice : ClassM.addInterface "I" (withInterfaceDraft [.typeName ⟨3⟩] ⟨5⟩) =
    .ok () { withInterfaceDraft [.typeName ⟨3⟩] ⟨5⟩ with interfaces := [⟨5⟩, ⟨4⟩] } :=
  ClassM.onPool_modify_eq_ok.mpr
    ⟨⟨4⟩, _, PoolM.addTypeName_of_lookup lookupTypeName_withInterface.2, rfl⟩

/-- The interface is not added again to the class that has one constant for it. To the one that has
two it is added, but only once. -/
theorem addInterface_of_mem_withInterface :
    ClassM.addInterface "I" (withInterfaceDraft [] ⟨4⟩) = .ok () (withInterfaceDraft [] ⟨4⟩) ∧
    ∃ e, ClassM.addInterface "I" (withInterfaceDraft [.typeName ⟨3⟩] ⟨5⟩) = .ok () e ∧
      e.interfaceNames = .ok ["I", "I"] ∧ ClassM.addInterface "I" e = .ok () e := by
  have hone : ofImage (withInterface [] ⟨4⟩) = .ok (withInterfaceDraft [] ⟨4⟩) := rfl
  have htwo : ofImage (withInterface [.typeName ⟨3⟩] ⟨5⟩) =
    .ok (withInterfaceDraft [.typeName ⟨3⟩] ⟨5⟩) := rfl
  constructor
  · obtain ⟨hlists, hsame, -⟩ := addInterface_of_mem (.ofImage rfl hone) rfl List.mem_cons_self
    exact hsame (hlists _ (.ofImage rfl (by decide) hone) .start)
  · obtain ⟨-, -, hmore, -⟩ := addInterface_of_mem (.ofImage rfl htwo) rfl List.mem_cons_self
    have hl : ¬ (withInterfaceDraft [.typeName ⟨3⟩] ⟨5⟩).Lists "I" := by
      rintro ⟨i, hi, hfound⟩
      cases List.mem_singleton.mp hi
      cases lookupTypeName_withInterface.2.symm.trans hfound
    exact ⟨_, addInterface_twice, hmore hl _ addInterface_twice⟩

/-- The interface that the class begins with is there twice afterwards. -/
theorem interface_doubled : (withInterfaceDraft [.typeName ⟨3⟩] ⟨5⟩).Reachable ∧
    (withInterfaceDraft [.typeName ⟨3⟩] ⟨5⟩).interfaceNames = .ok ["I"] ∧
    ((withInterfaceDraft [.typeName ⟨3⟩] ⟨5⟩).after (.addInterface "I")).interfaceNames =
      .ok ["I", "I"] := by
  have hopen : ofImage (withInterface [.typeName ⟨3⟩] ⟨5⟩) =
    .ok (withInterfaceDraft [.typeName ⟨3⟩] ⟨5⟩) := rfl
  refine ⟨.ofImage rfl hopen, rfl, ?_⟩
  rw [ClassDraft.after, Edit.perform, addInterface_twice]
  rfl

end ClassImage

end Classfile
