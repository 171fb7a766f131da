import Classfile.Proofs.Draft.Rebuild

/-!
Rebuilding a class gives a normal form of it. Nothing is added to its pool, and rebuilding it once
more changes nothing at all.
-/
namespace Classfile

open ConstantPool Member

variable {pool : ConstantPool} {d e : ClassDraft} {c c' : ClassImage}
  {attributes : List Attribute} {names : List String}

namespace MemberKind

theorem lawful_methods : methods.Lawful where
  members_put _ _ := rfl
  put_members _ := rfl
  put_put _ _ _ := rfl
  pool_put _ _ := rfl
  wrap_put _ _ := rfl
  signature h := by
    obtain ⟨owner, -, h⟩ := Except.bind_eq_ok.mp h
    obtain ⟨-, -, -, hn, hd⟩ := MethodDraft.valid_ofMethod h
    exact ⟨_, ClassDraft.signatureOf_eq_ok.mpr ⟨hn, hd⟩⟩
  build hp hw hb := by
    obtain ⟨owner, hn, hw⟩ := Except.bind_eq_ok.mp hw
    obtain ⟨rfl, ⟨draft, hr, hb⟩, hl⟩ := MethodDraft.build_ofMethod hp hw hb
    exact ⟨rfl, ⟨draft, Except.bind_eq_ok.mpr ⟨owner, hn, hr⟩, hb⟩, hl⟩

theorem lawful_fields : fields.Lawful where
  members_put _ _ := rfl
  put_members _ := rfl
  put_put _ _ _ := rfl
  pool_put _ _ := rfl
  wrap_put _ _ := rfl
  signature h := by
    obtain ⟨-, -, hn, hd⟩ := FieldDraft.valid_ofField h
    exact ⟨_, ClassDraft.signatureOf_eq_ok.mpr ⟨hn, hd⟩⟩
  build hp hw hb := by
    obtain ⟨rfl, ⟨draft, hr, hb⟩, hl⟩ := FieldDraft.build_ofField hp hw hb
    exact ⟨rfl, ⟨draft, hr, hb⟩, hl⟩

end MemberKind

/-! ### The attributes of a class -/

namespace ConstantPool

/-- The attribute has a name, which is not that of annotations. -/
def keeps (pool : ConstantPool) (a : Attribute) : Bool :=
  match pool.attributeName a with
  | .ok name => !isAnnotationAttribute name
  | .error _ => false

theorem keeps_iff {a : Attribute} : pool.keeps a = true ↔
    a.Apart pool (annotationNames ++ parameterAnnotationNames) := by
  unfold keeps Attribute.Apart
  cases hn : pool.attributeName a with
  | error e => simp
  | ok name =>
    constructor
    · intro h
      refine ⟨name, rfl, fun hm => ?_⟩
      simp [isAnnotationAttribute_iff.mpr hm] at h
    · rintro ⟨_, hname, hm⟩
      cases hname
      rw [Bool.not_eq_true', Bool.eq_false_iff]
      exact fun h => hm (isAnnotationAttribute_iff.mp h)

theorem filter_keeps (h : attributes.mapM pool.attributeName = .ok names) :
    ((attributes.zip names).filter fun entry => !isAnnotationAttribute entry.2).map (·.1) =
      attributes.filter pool.keeps := by
  rw [Except.mapM_eq_ok] at h
  induction h with
  | nil => rfl
  | @cons a name attributes names hn _ ih =>
    rw [List.zip_cons_cons, List.filter_cons, List.filter_cons, keeps, hn]
    split <;> simp [ih]

theorem eq_of_mapM_checked {role : Role} {xs ys : List ConstantIndex}
    (h : xs.mapM (pool.checked role) = .ok ys) : ys = xs := by
  rw [Except.mapM_eq_ok] at h
  induction h with
  | nil => rfl
  | cons hx _ ih => rw [ih, (checked_eq_ok.mp hx).1]

theorem eq_of_option_mapM_checked {role : Role} {x y : Option ConstantIndex}
    (h : x.mapM (pool.checked role) = .ok y) : y = x := by
  cases x with
  | none =>
    cases h
    rfl
  | some i =>
    rw [Option.mapM_some] at h
    obtain ⟨j, hj, rfl⟩ := Except.map_eq_ok.mp h
    rw [(checked_eq_ok.mp hj).1]

end ConstantPool

/-- The draft shows the class as it is stored, and all indices of the class fit the pool. -/
structure ClassDraft.Shows (d : ClassDraft) (c : ClassImage) : Prop where
  pool : ConstantPool.ofTable c.constants = .ok d.pool
  version : d.version = c.version
  flags : d.flags = c.flags
  name : ∃ name, d.name = .ok name
  thisClass : d.pool.checked .typeName c.thisClass = .ok d.thisClass
  superClass : c.superClass.mapM (d.pool.checked .typeName) = .ok d.superClass
  interfaces : c.interfaces.mapM (d.pool.checked .typeName) = .ok d.interfaces
  fields : d.fields = c.fields ∧ ∀ f ∈ d.fields, ∃ draft, MemberKind.fields.wrap d f = .ok draft
  methods : d.methods = c.methods ∧
    ∀ m ∈ d.methods, ∃ draft, MemberKind.methods.wrap d m = .ok draft
  names : ∃ names, c.attributes.mapM d.pool.attributeName = .ok names
  attributes : d.attributes = c.attributes.filter d.pool.keeps
  annotations : d.pool.annotations c.attributes = .ok d.annotations

namespace ClassDraft

theorem ofImage_eq_ok : ofImage c = .ok d ↔ d.Shows c := by
  have hwrap : ∀ {name : String} {m : Method} {draft : MethodDraft}, d.name = .ok name →
      (MemberKind.methods.wrap d m = .ok draft ↔
        MethodDraft.ofMethod d.pool name m = .ok draft) := by
    intro name m draft hn
    change (d.name >>= fun owner => MethodDraft.ofMethod d.pool owner m) = .ok draft ↔ _
    rw [hn, Except.ok_bind]
  constructor
  · intro h
    obtain ⟨pool, hpool, h⟩ := Except.bind_eq_ok.mp h
    obtain ⟨thisClass, hthis, h⟩ := Except.bind_eq_ok.mp h
    obtain ⟨name, hname, h⟩ := Except.bind_eq_ok.mp h
    obtain ⟨superClass, hsuper, h⟩ := Except.bind_eq_ok.mp h
    obtain ⟨interfaces, hinterfaces, h⟩ := Except.bind_eq_ok.mp h
    obtain ⟨_, hfields, h⟩ := Except.bind_eq_ok.mp h
    obtain ⟨_, hmethods, h⟩ := Except.bind_eq_ok.mp h
    obtain ⟨names, hnames, h⟩ := Except.bind_eq_ok.mp h
    obtain ⟨annotations, hannotations, rfl⟩ := Except.map_eq_ok.mp h
    refine ⟨hpool, rfl, rfl, ⟨name, hname⟩, hthis, hsuper, hinterfaces, ⟨rfl, fun f hf => ?_⟩,
      ⟨rfl, fun m hm => ?_⟩, ⟨names, hnames⟩, filter_keeps hnames, hannotations⟩
    · exact Except.discard_eq_ok.mp (Except.forM_eq_ok.mp hfields f hf)
    · obtain ⟨draft, hd⟩ := Except.discard_eq_ok.mp (Except.forM_eq_ok.mp hmethods m hm)
      exact ⟨draft, (hwrap hname).mpr hd⟩
  · rintro ⟨hpool, hversion, hflags, ⟨name, hname⟩, hthis, hsuper, hinterfaces, ⟨hf, hfields⟩,
      ⟨hm, hmethods⟩, ⟨names, hnames⟩, hattributes, hannotations⟩
    refine Except.bind_eq_ok.mpr ⟨_, hpool, Except.bind_eq_ok.mpr ⟨_, hthis, ?_⟩⟩
    refine Except.bind_eq_ok.mpr ⟨name, hname, Except.bind_eq_ok.mpr ⟨_, hsuper, ?_⟩⟩
    refine Except.bind_eq_ok.mpr ⟨_, hinterfaces, Except.bind_eq_ok.mpr ⟨(), ?_, ?_⟩⟩
    · refine Except.forM_eq_ok.mpr fun f hm => Except.discard_eq_ok.mpr ?_
      exact hfields f (hf ▸ hm)
    refine Except.bind_eq_ok.mpr ⟨(), ?_, ?_⟩
    · refine Except.forM_eq_ok.mpr fun m hx => Except.discard_eq_ok.mpr ?_
      obtain ⟨draft, hd⟩ := hmethods m (hm ▸ hx)
      exact ⟨draft, (hwrap hname).mp hd⟩
    refine Except.bind_eq_ok.mpr ⟨names, hnames, Except.map_eq_ok.mpr ⟨_, hannotations, ?_⟩⟩
    rw [filter_keeps hnames, ← hattributes, ← hversion, ← hflags, ← hf, ← hm]

/-- Rebuilding the members replaces some of them, and changes nothing else. -/
theorem rebuildMembers_eq_ok (hp : d.pool.Coherent) :
    (∃ drafts, ClassM.rebuildMembers d = .ok drafts e) ↔ ∃ methods fields,
      Pass d.pool (MemberKind.methods.Renews d) (List.range d.methods.length) d.methods methods ∧
      Pass d.pool (MemberKind.fields.Renews d) (List.range d.fields.length) d.fields fields ∧
      e = { d with methods, fields } := by
  unfold ClassM.rebuildMembers
  rw [MemberKind.rebuildAt_methods, MemberKind.rebuildAt_fields]
  constructor
  · rintro ⟨_, h⟩
    obtain ⟨_, _, hg, h⟩ := EStateM.bind_eq_ok.mp h
    cases hg
    obtain ⟨ms, mid, hm, h⟩ := EStateM.bind_eq_ok.mp h
    obtain ⟨methods, hmethods, rfl⟩ :=
      (MemberKind.rebuildAt_eq_ok MemberKind.lawful_methods hp).mp ⟨ms, hm⟩
    obtain ⟨_, _, hg, h⟩ := EStateM.bind_eq_ok.mp h
    cases hg
    obtain ⟨fs, hf, -⟩ := EStateM.map_eq_ok.mp h
    obtain ⟨fields, hfields, rfl⟩ :=
      (MemberKind.rebuildAt_eq_ok (d := { d with methods }) MemberKind.lawful_fields hp).mp
        ⟨fs, hf⟩
    exact ⟨methods, fields, hmethods, hfields, rfl⟩
  · rintro ⟨methods, fields, hmethods, hfields, rfl⟩
    obtain ⟨ms, hm⟩ := (MemberKind.rebuildAt_eq_ok MemberKind.lawful_methods hp).mpr
      ⟨methods, hmethods, rfl⟩
    obtain ⟨fs, hf⟩ := (MemberKind.rebuildAt_eq_ok (d := { d with methods })
      MemberKind.lawful_fields hp).mpr ⟨fields, hfields, rfl⟩
    refine ⟨(ms, fs), EStateM.bind_eq_ok.mpr ⟨d, d, rfl, ?_⟩⟩
    refine EStateM.bind_eq_ok.mpr ⟨ms, _, hm, EStateM.bind_eq_ok.mpr ⟨_, _, rfl, ?_⟩⟩
    exact EStateM.map_eq_ok.mpr ⟨fs, hf, rfl⟩

theorem build_eq_ok : d.build = .ok c ↔ ∃ attributes pool,
    PoolM.addAnnotations d.annotations d.pool = .ok attributes pool ∧
      c = ⟨d.version, pool.table, d.flags, d.thisClass, d.superClass, d.interfaces, d.fields,
        d.methods, d.attributes ++ attributes⟩ := by
  unfold ClassDraft.build
  cases PoolM.addAnnotations d.annotations d.pool <;> simp [eq_comm]

/-- The draft as it is when its image was stored and read back. -/
def restored (d : ClassDraft) : ClassDraft := { d with annotations := byVisibility d.annotations }

/-- When all members have been rebuilt, rebuilding them once more leaves them as they are. -/
theorem rebuildMembers_again (hs : d.Shows c) (hp : d.pool.Coherent)
    {drafts : List MethodDraft × List FieldDraft} (h : ClassM.rebuildMembers d = .ok drafts e) :
    ∃ methods fields, e = { d with methods, fields } ∧
      (∀ f ∈ fields, ∃ draft, MemberKind.fields.wrap d f = .ok draft) ∧
      (∀ m ∈ methods, ∃ draft, MemberKind.methods.wrap d m = .ok draft) ∧
      ∃ more, ClassM.rebuildMembers e.restored = .ok more e.restored := by
  obtain ⟨methods, fields, hmethods, hfields, rfl⟩ := (rebuildMembers_eq_ok hp).mp ⟨drafts, h⟩
  have hm := fun m r => MemberKind.lawful_methods.renews (m := m) (r := r) hp
  have hf := fun f r => MemberKind.lawful_fields.renews (m := f) (r := r) hp
  refine ⟨methods, fields, rfl, ?_, ?_, ?_⟩
  · exact hfields.forall_mem (fun f r h => (hf f r h).1.imp fun _ h => h.1) hs.fields.2
  · exact hmethods.forall_mem (fun m r h => (hm m r h).1.imp fun _ h => h.1) hs.methods.2
  · refine (rebuildMembers_eq_ok (d := restored { d with methods, fields }) hp).mpr
      ⟨methods, fields, ?_, ?_, rfl⟩
    · exact hmethods.again (fun m r h => (hm m r h).2) fun m r h => (hm m r h).1
    · exact hfields.again (fun f r h => (hf f r h).2) fun f r h => (hf f r h).1

/-- The attributes of annotations are left out of those that a class keeps. -/
theorem filter_keeps_append {xs ys : List Attribute} (hx : ∀ a ∈ xs, pool.keeps a = true)
    (hy : ∀ a ∈ ys, a.Named pool (annotationNames ++ parameterAnnotationNames)) :
    (xs ++ ys).filter pool.keeps = xs := by
  have hn : ys.filter pool.keeps = [] := by
    refine List.filter_eq_nil_iff.mpr fun a ha hk => ?_
    obtain ⟨name, hname, hm⟩ := keeps_iff.mp hk
    obtain ⟨_, hmem, hname'⟩ := hy a ha
    rw [hname] at hname'
    cases hname'
    exact hm hmem
  rw [List.filter_append, List.filter_eq_self.mpr hx, hn, List.append_nil]

/-- The image of a class with other members shows these members. Nothing is added to the pool, and
the same image is built again. -/
theorem shows_build {methods : List Method} {fields : List Field} (hs : d.Shows c)
    (hp : d.pool.Coherent)
    (hf : ∀ f ∈ fields, ∃ draft, MemberKind.fields.wrap d f = .ok draft)
    (hm : ∀ m ∈ methods, ∃ draft, MemberKind.methods.wrap d m = .ok draft)
    (h : { d with methods, fields }.build = .ok c') : c'.constants = d.pool.table ∧
      (restored { d with methods, fields }).Shows c' ∧
        (restored { d with methods, fields }).build = .ok c' := by
  obtain ⟨attributes, pool, ha, rfl⟩ := build_eq_ok.mp h
  obtain ⟨-, -, hstores⟩ := PoolM.addAnnotations_eq_ok hp.faithful ha
  cases PoolM.keeps_addAnnotations hp.faithful (held_of_annotations hs.annotations) ha
  have hkeeps : ∀ a ∈ d.attributes, d.pool.keeps a = true := by
    intro a hm
    rw [hs.attributes] at hm
    exact (List.mem_filter.mp hm).2
  have hnamed : ∀ a ∈ attributes, a.Named d.pool (annotationNames ++ parameterAnnotationNames) :=
    fun a hm => (hstores.named a hm).mono fun _ => List.mem_append_left _
  have hannotations : d.pool.annotations (d.attributes ++ attributes) =
      .ok (byVisibility d.annotations) := by
    rw [← List.append_nil attributes, ← List.append_assoc]
    refine annotations_eq (fun a hm => ?_) hstores (by simp) (check_of_annotations hs.annotations)
    exact (keeps_iff.mp (hkeeps a hm)).mono fun _ => List.mem_append_left _
  have hnames : ∃ names, (d.attributes ++ attributes).mapM d.pool.attributeName = .ok names := by
    refine Except.exists_mapM fun a hm => ?_
    rcases List.mem_append.mp hm with hm | hm
    · obtain ⟨name, hn, -⟩ := keeps_iff.mp (hkeeps a hm)
      exact ⟨name, hn⟩
    · obtain ⟨name, -, hn⟩ := hnamed a hm
      exact ⟨name, hn⟩
  obtain ⟨-, htable, -⟩ := ofTable_eq_ok hs.pool
  refine ⟨rfl, ⟨?_, rfl, rfl, hs.name, ?_, ?_, ?_, ⟨rfl, hf⟩, ⟨rfl, hm⟩, hnames,
    (filter_keeps_append hkeeps hnamed).symm, hannotations⟩, ?_⟩
  · have hc : d.pool.table = c.constants := by rw [htable]
    exact hc ▸ hs.pool
  · have ht := hs.thisClass
    rwa [(checked_eq_ok.mp ht).1] at ht
  · have hx := hs.superClass
    rwa [← eq_of_option_mapM_checked hx] at hx
  · have hx := hs.interfaces
    rwa [← eq_of_mapM_checked hx] at hx
  · refine build_eq_ok.mpr ⟨attributes, d.pool, ?_, rfl⟩
    exact (congrFun PoolM.addAnnotations_byVisibility d.pool).trans ha

end ClassDraft

/-- Rebuilding a class adds no constants. What it gives can be rebuilt, and is the same then. -/
theorem ClassImage.rebuild_normal {constants : List Constant}
    (hc : c.constants = WidthTable.ofList 1 constants) (h : c.rebuild = .ok c') :
    c'.constants = c.constants ∧ (∃ d, ClassDraft.ofImage c' = .ok d) ∧ c'.rebuild = .ok c' := by
  obtain ⟨d, hd, h⟩ := Except.bind_eq_ok.mp h
  have hs := ClassDraft.ofImage_eq_ok.mp hd
  have hp : d.pool.Coherent := by
    have hpool := hs.pool
    rw [hc] at hpool
    exact coherent_ofTable hpool
  have htable : d.pool.table = c.constants := by
    obtain ⟨-, hpool, -⟩ := ofTable_eq_ok hs.pool
    rw [hpool]
  split at h
  · rename_i drafts e hr
    obtain ⟨methods, fields, rfl, hf, hm, more, hagain⟩ :=
      ClassDraft.rebuildMembers_again hs hp hr
    obtain ⟨hconstants, hshows, hbuild⟩ := ClassDraft.shows_build hs hp hf hm h
    have hopen := ClassDraft.ofImage_eq_ok.mpr hshows
    refine ⟨hconstants.trans htable, ⟨_, hopen⟩, ?_⟩
    rw [ClassImage.rebuild, hopen, Except.ok_bind, hagain]
    exact hbuild
  · cases h

namespace ClassImage

/-- A class with a method and with a field that has an initial value. -/
def tally : ClassImage :=
  { counter with
    constants := WidthTable.ofList 1 [.utf8 "Counter", .typeName ⟨1⟩, .utf8 "start", .utf8 "J",
      .utf8 "ConstantValue", .long 1, .utf8 "get", .utf8 "()J"]
    methods := [⟨.ofBits .method 0x0401, ⟨8⟩, ⟨9⟩, []⟩] }

/-- The draft of the class, and those of its members. -/
def tallyDraft : ClassDraft :=
  { version := tally.version, flags := tally.flags
    pool := ⟨tally.constants, tally.constants.toList.foldl remember ∅⟩
    thisClass := ⟨2⟩, superClass := none, interfaces := [], fields := tally.fields
    methods := tally.methods, annotations := [], attributes := [] }

def tallyMethod : MethodDraft :=
  { flags := .ofBits .method 0x0401, name := "get", descriptor := ⟨[], some (.base .long)⟩
    owner := "Counter", instructions := .empty, maxStack := 0, maxLocals := 0, handlers := []
    lines := #[], scopes := [], typeScopes := [], exceptions := [], annotations := []
    parameterAnnotations := [], attributes := [], codeAttributes := [] }

def tallyField : FieldDraft :=
  { flags := .ofBits .field 0x0019, name := "start", type := .base .long
    initialValue := some ⟨6⟩, annotations := [], attributes := [] }

/-- The constants of the class, and those of one more method. -/
def dropConstants : WidthTable Constant :=
  WidthTable.ofList 1 [.utf8 "Counter", .typeName ⟨1⟩, .utf8 "start", .utf8 "J",
    .utf8 "ConstantValue", .long 1, .utf8 "get", .utf8 "()J", .utf8 "drop", .utf8 "(I)V",
    .utf8 "Code"]

def dropPool : ConstantPool := ⟨dropConstants, dropConstants.toList.foldl remember ∅⟩

/-- A method whose code is stored in the bytes. -/
def storedDrop (info : List UInt8) : Method :=
  ⟨.ofBits .method 0x0009, ⟨10⟩, ⟨11⟩, [⟨⟨12⟩, info⟩]⟩

/-- The class with this method as well. -/
def dropping (info : List UInt8) : ClassImage :=
  { tally with constants := dropConstants, methods := tally.methods ++ [storedDrop info] }

def dropDraft (info : List UInt8) : ClassDraft :=
  { tallyDraft with pool := dropPool, methods := (dropping info).methods }

/-- Code that loads a number and drops it. The number of the variable is written out. -/
def longDrop : List UInt8 := [0, 1, 0, 1, 0, 0, 0, 4, 0x15, 0, 0x57, 0xb1, 0, 0, 0, 0]

/-- The same code with the short form for the variable. -/
def shortDrop : List UInt8 := [0, 1, 0, 1, 0, 0, 0, 3, 0x1a, 0x57, 0xb1, 0, 0, 0, 0]

/-- The draft of the method, whichever form its code has. -/
def dropMethod : MethodDraft :=
  { tallyMethod with
    flags := .ofBits .method 0x0009, name := "drop", descriptor := ⟨[.base .int], none⟩
    instructions := .ofList [.load .int 0, .simple .pop, .simple .returnVoid]
    maxStack := 1, maxLocals := 1 }

theorem ofTable_drop : ofTable dropConstants = .ok dropPool := rfl

theorem build_tallyMethod :
    tallyMethod.build dropPool = .ok ⟨.ofBits .method 0x0401, ⟨8⟩, ⟨9⟩, []⟩ dropPool := by
  have hname : PoolM.addText "get" dropPool = .ok ⟨8⟩ dropPool :=
    PoolM.add_of_ofTable ofTable_drop rfl
  have hdescriptor : PoolM.addText "()J" dropPool = .ok ⟨9⟩ dropPool :=
    PoolM.add_of_ofTable ofTable_drop rfl
  rw [MethodDraft.build_eq]
  exact EStateM.bind_eq_ok.mpr ⟨_, _, hname, EStateM.bind_eq_ok.mpr ⟨_, _, hdescriptor, rfl⟩⟩

theorem build_tallyField : tallyField.build dropPool =
    .ok ⟨.ofBits .field 0x0019, ⟨3⟩, ⟨4⟩, [⟨⟨5⟩, [0, 6]⟩]⟩ dropPool := by
  have hname : PoolM.addText "start" dropPool = .ok ⟨3⟩ dropPool :=
    PoolM.add_of_ofTable ofTable_drop rfl
  have hdescriptor : PoolM.addText "J" dropPool = .ok ⟨4⟩ dropPool :=
    PoolM.add_of_ofTable ofTable_drop rfl
  have hvalue : PoolM.addText "ConstantValue" dropPool = .ok ⟨5⟩ dropPool :=
    PoolM.add_of_ofTable ofTable_drop rfl
  have ha : PoolM.addAttribute (ConstantValue.mk ⟨6⟩) dropPool = .ok ⟨⟨5⟩, [0, 6]⟩ dropPool :=
    EStateM.bind_eq_ok.mpr ⟨_, _, hvalue, rfl⟩
  rw [FieldDraft.build_eq]
  refine EStateM.bind_eq_ok.mpr ⟨_, _, hname, EStateM.bind_eq_ok.mpr ⟨_, _, hdescriptor, ?_⟩⟩
  exact EStateM.bind_eq_ok.mpr ⟨_, _, EStateM.map_eq_ok.mpr ⟨_, ha, rfl⟩, rfl⟩

theorem encode_drop : dropMethod.instructions.encode = .ok [0x1a, 0x57, 0xb1] :=
  InstructionSeq.encode_of_pieces [[0x1a], [0x57], [0xb1]]
    (.cons rfl (.cons rfl (.cons rfl .nil))) (by decide)

theorem build_dropMethod : dropMethod.build dropPool = .ok (storedDrop shortDrop) dropPool := by
  have hname : PoolM.addText "drop" dropPool = .ok ⟨10⟩ dropPool :=
    PoolM.add_of_ofTable ofTable_drop rfl
  have hdescriptor : PoolM.addText "(I)V" dropPool = .ok ⟨11⟩ dropPool :=
    PoolM.add_of_ofTable ofTable_drop rfl
  have hcode : PoolM.addText "Code" dropPool = .ok ⟨12⟩ dropPool :=
    PoolM.add_of_ofTable ofTable_drop rfl
  have hbody : dropMethod.buildCode dropPool = .ok ⟨1, 1, [0x1a, 0x57, 0xb1], [], []⟩ dropPool :=
    EStateM.bind_eq_ok.mpr ⟨_, _, PoolM.ask_eq_ok.mpr ⟨encode_drop, rfl⟩, rfl⟩
  have ha : dropMethod.addCode dropPool = .ok [⟨⟨12⟩, shortDrop⟩] dropPool :=
    EStateM.bind_eq_ok.mpr ⟨_, _, hbody, EStateM.map_eq_ok.mpr
      ⟨⟨⟨12⟩, shortDrop⟩, EStateM.bind_eq_ok.mpr ⟨_, _, hcode, rfl⟩, rfl⟩⟩
  rw [MethodDraft.build_eq]
  refine EStateM.bind_eq_ok.mpr ⟨_, _, hname, EStateM.bind_eq_ok.mpr ⟨_, _, hdescriptor, ?_⟩⟩
  exact EStateM.bind_eq_ok.mpr ⟨_, _, ha, rfl⟩

theorem first_cons {owner : FlagOwner} (m : Member owner) (members : List (Member owner)) :
    First pool (m :: members) m 0 m :=
  ⟨rfl, .refl m, fun k hk => absurd hk (Nat.not_lt_zero k)⟩

theorem rebuild_dropping : (dropping longDrop).rebuild = .ok (dropping shortDrop) := by
  have hopen : ClassDraft.ofImage (dropping longDrop) = .ok (dropDraft longDrop) := rfl
  have hp : dropPool.Coherent := coherent_ofTable ofTable_drop
  have hsecond : First dropPool (dropping longDrop).methods (storedDrop longDrop) 1
      (storedDrop longDrop) := by
    refine ⟨rfl, .refl _, fun k hk x hx hl => ?_⟩
    obtain rfl : k = 0 := Nat.lt_one_iff.mp hk
    cases hx
    have hnames : (.ok "get" : Except Fault String) = .ok "drop" := hl.1
    exact absurd (Except.ok.inj hnames) (by decide)
  obtain ⟨drafts, hr⟩ := (ClassDraft.rebuildMembers_eq_ok (d := dropDraft longDrop) hp).mpr
    ⟨(dropping shortDrop).methods, tally.fields,
      .replace rfl (first_cons _ _) ⟨tallyMethod, rfl, build_tallyMethod⟩
        (.replace rfl hsecond ⟨dropMethod, rfl, build_dropMethod⟩ .done),
      .replace rfl (first_cons _ _) ⟨tallyField, rfl, build_tallyField⟩ .done, rfl⟩
  rw [rebuild, hopen, Except.ok_bind, hr]
  exact ClassDraft.build_eq_ok.mpr ⟨[], dropPool, rfl, rfl⟩

/-- The first time, the load gets its short form. After that nothing changes. -/
theorem rebuild_normal_dropping : dropping longDrop ≠ dropping shortDrop ∧
    (dropping longDrop).rebuild = .ok (dropping shortDrop) ∧
    (dropping shortDrop).constants = (dropping longDrop).constants ∧
    (∃ d, ClassDraft.ofImage (dropping shortDrop) = .ok d) ∧
    (dropping shortDrop).rebuild = .ok (dropping shortDrop) := by
  obtain ⟨hconstants, hopen, hagain⟩ := rebuild_normal rfl rebuild_dropping
  refine ⟨?_, rebuild_dropping, hconstants, hopen, hagain⟩
  simp [dropping, storedDrop, longDrop, shortDrop]

end ClassImage

end Classfile
