import Classfile.Proofs.Annotation.Writable
import Classfile.Proofs.Draft.NormalForm
import Classfile.Proofs.Pool.References

/-!
A class that has become a draft can be used. Its names are there, its members become drafts, and it
is built again without adding to its pool, which may be full.
-/
namespace Classfile

open ConstantPool

variable {pool : ConstantPool} {i j : ConstantIndex} {uses : List AnnotationUse} {c : ClassImage}
  {d : ClassDraft} {constants : List Constant}

namespace ConstantPool

theorem exists_typeName (h : ofTable (WidthTable.ofList 1 constants) = .ok pool)
    (hc : pool.checked .typeName i = .ok j) : ∃ name, pool.typeName j = .ok name := by
  obtain ⟨rfl, hplays⟩ := checked_eq_ok.mp hc
  exact (sound_ofTable h).readable.typeName i hplays

end ConstantPool

namespace PoolM

theorem addNamed_of_held {skip : Bool} {name : String} (info : List UInt8) (hp : pool.Faithful)
    (ht : skip = false → pool.Held name) :
    ∃ attributes, addNamed skip name info pool = .ok attributes pool := by
  cases skip with
  | true => exact ⟨[], rfl⟩
  | false =>
    obtain ⟨i, hi⟩ := addText_of_held hp (ht rfl)
    exact ⟨[⟨i, info⟩], EStateM.map_eq_ok.mpr ⟨i, hi, rfl⟩⟩

/-- Annotations that can be written are stored, if there are not too many of them and the names of
the attributes are there. -/
theorem exists_addAnnotations (hp : pool.Faithful)
    (ht : ∀ u ∈ uses, pool.Held (annotationName u.visible)) (hw : ∀ u ∈ uses, u.body.Writable)
    (hl : ∀ visible, (annotationsOf visible uses).length ≤ 65535) :
    ∃ attributes, addAnnotations uses pool = .ok attributes pool := by
  have hname : ∀ visible, (annotationsOf visible uses).isEmpty = false →
      pool.Held (annotationName visible) := fun _ => held_of_isEmpty_annotationsOf ht
  obtain ⟨visible, hv⟩ := exists_annotationBytes_of_uses (hl true) hw
  obtain ⟨invisible, hi⟩ := exists_annotationBytes_of_uses (hl false) hw
  obtain ⟨xs, hx⟩ := addNamed_of_held visible hp (hname true)
  obtain ⟨ys, hy⟩ := addNamed_of_held invisible hp (hname false)
  refine ⟨xs ++ ys, ?_⟩
  rw [addAnnotations_eq]
  refine EStateM.bind_eq_ok.mpr ⟨visible, pool, ask_eq_ok.mpr ⟨hv, rfl⟩, ?_⟩
  refine EStateM.bind_eq_ok.mpr ⟨invisible, pool, ask_eq_ok.mpr ⟨hi, rfl⟩, ?_⟩
  exact EStateM.bind_eq_ok.mpr ⟨xs, pool, hx, EStateM.map_eq_ok.mpr ⟨ys, hy, rfl⟩⟩

end PoolM

namespace MemberKind

variable {owner : FlagOwner} {δ : Type} {kind : MemberKind owner δ} {m : Member owner}

/-- A member that becomes a draft has a name and a descriptor, and with these one is found that
becomes a draft. -/
theorem exists_wrap_of_mem (hk : kind.Lawful)
    (hw : ∀ m ∈ kind.members d, ∃ draft, kind.wrap d m = .ok draft) (hm : m ∈ kind.members d) :
    ∃ name descriptor p r draft, d.signatureOf m = .ok (name, descriptor) ∧
      kind.find d name descriptor = .ok (p, r) ∧ kind.wrap d r = .ok draft := by
  obtain ⟨n, hn⟩ := List.getElem?_of_mem hm
  obtain ⟨p, r, hf⟩ := Member.exists_first hn
  obtain ⟨_, hwm⟩ := hw m hm
  obtain ⟨⟨name, descriptor⟩, hs⟩ := hk.signature hwm
  obtain ⟨draft, hwr⟩ := hw r (List.mem_of_getElem? hf.found)
  exact ⟨name, descriptor, p, r, draft, hs, (find_eq_ok hs).mpr hf, hwr⟩

end MemberKind

namespace ClassDraft

theorem method_of_mem (hs : d.Shows c) {m : Method} (hm : m ∈ c.methods) :
    ∃ name descriptor draft, d.signatureOf m = .ok (name, descriptor) ∧
      d.method name descriptor = .ok draft := by
  obtain ⟨hc, hw⟩ := hs.methods
  obtain ⟨name, descriptor, p, r, draft, hsig, hf, hwr⟩ :=
    MemberKind.exists_wrap_of_mem MemberKind.lawful_methods hw (hc ▸ hm)
  rw [MemberKind.find_methods] at hf
  exact ⟨name, descriptor, draft, hsig, Except.bind_eq_ok.mpr ⟨(p, r), hf, hwr⟩⟩

theorem field_of_mem (hs : d.Shows c) {f : Field} (hm : f ∈ c.fields) :
    ∃ name descriptor draft, d.signatureOf f = .ok (name, descriptor) ∧
      d.field name descriptor = .ok draft := by
  obtain ⟨hc, hw⟩ := hs.fields
  obtain ⟨name, descriptor, p, r, draft, hsig, hf, hwr⟩ :=
    MemberKind.exists_wrap_of_mem MemberKind.lawful_fields hw (hc ▸ hm)
  rw [MemberKind.find_fields] at hf
  exact ⟨name, descriptor, draft, hsig, Except.bind_eq_ok.mpr ⟨(p, r), hf, hwr⟩⟩

theorem names_of_shows (hc : c.constants = WidthTable.ofList 1 constants) (hs : d.Shows c) :
    (∃ name, d.name = .ok name) ∧ (∃ name, d.superName = .ok name) ∧
      ∃ names, d.interfaceNames = .ok names := by
  have hpool := hc ▸ hs.pool
  refine ⟨hs.name, ?_, Except.exists_mapM fun i hi => ?_⟩
  · have hsuper := hs.superClass
    unfold superName
    cases hd : d.superClass with
    | none => exact ⟨none, rfl⟩
    | some i =>
      rw [← eq_of_option_mapM_checked hsuper, hd] at hsuper
      obtain ⟨j, hj, -⟩ := Except.map_eq_ok.mp hsuper
      obtain ⟨rfl, -⟩ := checked_eq_ok.mp hj
      obtain ⟨name, hname⟩ := exists_typeName hpool hj
      exact ⟨some name, Except.map_eq_ok.mpr ⟨name, hname, rfl⟩⟩
  · obtain ⟨j, -, hj⟩ := Except.exists_of_mem_mapM hs.interfaces hi
    exact exists_typeName hpool hj

/-- Building a class that was not edited gives the class as it was, except that its annotations are
gathered behind the other attributes. -/
theorem build_of_shows (hp : d.pool.Coherent) (hs : d.Shows c)
    (hl : ∀ visible, (annotationsOf visible d.annotations).length ≤ 65535) :
    ∃ stored, d.build =
        .ok { c with attributes := c.attributes.filter d.pool.keeps ++ stored } ∧
      StoresAnnotations d.pool d.annotations stored := by
  obtain ⟨stored, ha⟩ := PoolM.exists_addAnnotations hp.faithful
    (held_of_annotations hs.annotations) (writable_of_annotations hs.annotations) hl
  obtain ⟨-, -, hstored⟩ := PoolM.addAnnotations_eq_ok hp.faithful ha
  refine ⟨stored, build_eq_ok.mpr ⟨stored, d.pool, ha, ?_⟩, hstored⟩
  have hconstants : d.pool.table = c.constants := by rw [(ofTable_eq_ok hs.pool).2.1]
  rw [hs.version, hconstants, hs.flags, hs.attributes, hs.fields.1, hs.methods.1,
    (checked_eq_ok.mp hs.thisClass).1, eq_of_option_mapM_checked hs.superClass,
    eq_of_mapM_checked hs.interfaces]

/-- Whatever may be asked of a class that became a draft, and of its members, has an answer, and the
class can be built. What is built is the class as it was, but for the attributes of its annotations:
all annotations of one visibility are in one attribute, in their order. -/
theorem usable_of_ofImage (hc : c.constants = WidthTable.ofList 1 constants)
    (h : ofImage c = .ok d)
    (hl : ∀ visible, (annotationsOf visible d.annotations).length ≤ 65535) :
    ((∃ name, d.name = .ok name) ∧ (∃ name, d.superName = .ok name) ∧
      ∃ names, d.interfaceNames = .ok names) ∧
    (∀ m ∈ c.methods, ∃ name descriptor draft, d.signatureOf m = .ok (name, descriptor) ∧
      d.method name descriptor = .ok draft) ∧
    (∀ f ∈ c.fields, ∃ name descriptor draft, d.signatureOf f = .ok (name, descriptor) ∧
      d.field name descriptor = .ok draft) ∧
    d.pool.annotations c.attributes = .ok d.annotations ∧
    ∃ stored, d.build =
        .ok { c with attributes := c.attributes.filter d.pool.keeps ++ stored } ∧
      StoresAnnotations d.pool d.annotations stored := by
  have hs := ofImage_eq_ok.mp h
  have hp : d.pool.Coherent := coherent_ofTable (hc ▸ hs.pool)
  exact ⟨names_of_shows hc hs, fun m => method_of_mem hs, fun f => field_of_mem hs,
    hs.annotations, build_of_shows hp hs hl⟩

end ClassDraft

namespace ClassImage

/-- A class with two attributes of annotations, with one annotation each. -/
def tagged : ClassImage :=
  { tally with
    constants := WidthTable.ofList 1 [.utf8 "Counter", .typeName ⟨1⟩, .utf8 "start", .utf8 "J",
      .utf8 "ConstantValue", .long 1, .utf8 "get", .utf8 "()J", .utf8 "RuntimeVisibleAnnotations",
      .utf8 "LTag;"]
    attributes := [⟨⟨10⟩, [0, 1, 0, 11, 0, 0]⟩, ⟨⟨10⟩, [0, 1, 0, 11, 0, 0]⟩] }

def taggedDraft : ClassDraft :=
  { tallyDraft with
    pool := ⟨tagged.constants, tagged.constants.toList.foldl remember ∅⟩
    annotations := [⟨⟨⟨11⟩, []⟩, true⟩, ⟨⟨⟨11⟩, []⟩, true⟩] }

theorem usable_of_ofImage_tagged : ClassDraft.ofImage tagged = .ok taggedDraft ∧
    (∀ m ∈ tagged.methods, ∃ name descriptor draft, taggedDraft.signatureOf m =
      .ok (name, descriptor) ∧ taggedDraft.method name descriptor = .ok draft) ∧
    ∃ stored, taggedDraft.build = .ok { tagged with attributes := stored } ∧
      StoresAnnotations taggedDraft.pool taggedDraft.annotations stored := by
  have h : ClassDraft.ofImage tagged = .ok taggedDraft := rfl
  have hl : ∀ visible, (annotationsOf visible taggedDraft.annotations).length ≤ 65535 := by
    decide
  have hu := ClassDraft.usable_of_ofImage rfl h hl
  exact ⟨h, hu.2.1, hu.2.2.2.2⟩

end ClassImage

end Classfile
