import Classfile.Proofs.Draft.Field
import Classfile.Proofs.Pool.References

/-!
Fields under edits. The pool that a draft of a field shares with others grows meanwhile. The
constant that the field begins with fits its type at all times, and a field that is built becomes
the same draft again, except that its visible annotations go before the others.
-/
namespace Classfile

open ConstantPool

variable {pool pool' : ConstantPool} {d e : FieldDraft} {f r : Field} {v : ConstantIndex}

namespace FieldType

/-- The kind of constant that fields of the type can begin with. Of all objects only strings have
one. -/
def initialRole? : FieldType → Option Role
  | .base type => some type.role
  | .object name => if name = "java/lang/String" then some .string else none
  | .array _ => none

/-- The index is that of a constant that fields of the type can begin with. -/
def Suits (pool : ConstantPool) (type : FieldType) (v : ConstantIndex) : Prop :=
  ∃ role, type.initialRole? = some role ∧ pool.Plays role v

theorem admits_base (type : BaseType) (c : Constant) :
    (base type).admits c = type.role.accepts c := by
  cases type <;> cases c <;> rfl

theorem admits_object (name : String) (c : Constant) :
    (object name).admits c = (name = "java/lang/String" && Role.string.accepts c) := by
  cases c <;> simp [admits, isString, Role.accepts]

theorem admits_array (element : FieldType) (c : Constant) : (array element).admits c = false := by
  cases c <;> simp [admits, isString]

theorem admits_iff {type : FieldType} {c : Constant} :
    type.admits c = true ↔ ∃ role, type.initialRole? = some role ∧ role.accepts c := by
  cases type with
  | base type => simp [admits_base, initialRole?]
  | object name =>
    by_cases hn : name = "java/lang/String" <;> simp [admits_object, initialRole?, hn]
  | array element => simp [admits_array, initialRole?]

theorem suits_iff {type : FieldType} :
    type.Suits pool v ↔ ∃ c, pool.get v = .ok c ∧ type.admits c := by
  simp only [Suits, Plays, admits_iff, get_eq_ok]
  constructor
  · rintro ⟨role, hr, c, hc, ha⟩
    exact ⟨c, hc, role, hr, ha⟩
  · rintro ⟨c, hc, role, hr, ha⟩
    exact ⟨role, hr, c, hc, ha⟩

theorem Suits.grows {type : FieldType} (h : type.Suits pool v) (hg : pool.Grows pool') :
    type.Suits pool' v := by
  obtain ⟨role, hr, hv⟩ := h
  exact ⟨role, hr, hv.grows hg⟩

end FieldType

namespace FieldDraft

/-- What a program can do to a draft of a field. -/
inductive Edit : Type 1
  | setInitialValue (value : ConstantIndex)
  | clearInitialValue
  | addAnnotation (u : AnnotationUse)
  | addAttribute {α : Type} [Payload α] (payload : α)

def Edit.perform : Edit → FieldM Unit
  | .setInitialValue value => FieldM.setInitialValue value
  | .clearInitialValue => DraftM.change FieldDraft.clearInitialValue
  | Edit.addAnnotation u => DraftM.change fun d => d.addAnnotation u
  | @Edit.addAttribute _ _ payload => FieldM.addAttribute payload

/-- The edit adds no attribute that would be taken in as something else. -/
def Edit.Plain : Edit → Prop
  | @Edit.addAttribute α _ _ => Payload.name α ∉ modelledNames
  | _ => True

/-- The draft and the pool that an edit leaves, when it succeeds and when it fails. -/
def after (pool : ConstantPool) (d : FieldDraft) (edit : Edit) : FieldDraft × ConstantPool :=
  edit.perform.left (d, pool)

/-- The drafts that a program can get hold of, together with the pool as it is then. -/
inductive Reachable : ConstantPool → FieldDraft → Prop
  | make {pool : ConstantPool} {flags : AccessFlags .field} {name descriptor : String}
      {d : FieldDraft} (hp : pool.Obtained) (h : make flags name descriptor = .ok d) :
      Reachable pool d
  | ofField {pool : ConstantPool} {f : Field} {d : FieldDraft} (hp : pool.Obtained)
      (h : ofField pool f = .ok d) : Reachable pool d
  /-- Something else is asked of the pool. -/
  | request {pool : ConstantPool} {d : FieldDraft} (hd : Reachable pool d) (r : Request) :
      Reachable (pool.after r) d
  | assign {pool : ConstantPool} {d : FieldDraft} (hd : Reachable pool d)
      (flags : AccessFlags .field) (name : String) : Reachable pool { d with flags, name }
  | edit {pool : ConstantPool} {d : FieldDraft} (hd : Reachable pool d) {edit : Edit}
      (he : edit.Plain) : Reachable (after pool d edit).2 (after pool d edit).1

/-! ### What every edit keeps -/

/-- The draft is in order, but for its annotations, which nothing looks at before they are read
back. -/
structure Fits (pool : ConstantPool) (d : FieldDraft) : Prop where
  initialValue : ∀ v, d.initialValue = some v → d.type.Suits pool v
  attributes : ∀ a ∈ d.attributes, a.Apart pool modelledNames
  type : FieldType.parse d.type.describe = .ok d.type

theorem Fits.grows (h : Fits pool d) (hg : pool.Grows pool') : Fits pool' d where
  initialValue v hv := (h.initialValue v hv).grows hg
  attributes a ha := (h.attributes a ha).grows hg
  type := h.type

theorem Valid.fits (h : Valid pool d) : Fits pool d where
  initialValue v hv := FieldType.suits_iff.mpr (h.initialValue v hv).2
  attributes := h.attributes
  type := h.type

theorem fits_make {flags : AccessFlags .field} {name descriptor : String}
    (h : make flags name descriptor = .ok d) : Fits pool d := by
  obtain ⟨type, ht, rfl⟩ := Except.map_eq_ok.mp h
  exact ⟨nofun, nofun, by rw [FieldType.describe_parse ht, ht]⟩

theorem fits_perform {edit : Edit} (hp : pool.Faithful) (hf : Fits pool d) (he : edit.Plain)
    (h : edit.perform (d, pool) = .ok () (e, pool')) : pool'.Faithful ∧ Fits pool' e := by
  cases edit with
  | setInitialValue value =>
    obtain ⟨hs, h⟩ := FieldM.setInitialValue_eq_ok.mp h
    cases h
    refine ⟨hp, ?_, hf.attributes, hf.type⟩
    rintro _ ⟨⟩
    exact FieldType.suits_iff.mpr hs
  | clearInitialValue =>
    cases h
    exact ⟨hp, nofun, hf.attributes, hf.type⟩
  | addAnnotation u =>
    cases h
    exact ⟨hp, hf.initialValue, hf.attributes, hf.type⟩
  | addAttribute payload =>
    obtain ⟨a, _, ha, h⟩ := FieldM.addAttribute_eq_ok.mp h
    cases h
    obtain ⟨hp', hg, ha⟩ := PoolM.addAttribute_eq_ok hp ha
    have hf := hf.grows hg
    refine ⟨hp', hf.initialValue, fun b hb => ?_, hf.type⟩
    rcases List.mem_append.mp hb with hb | hb
    · exact hf.attributes b hb
    · cases List.mem_singleton.mp hb
      exact ⟨_, ha.name, he⟩

/-- An edit that fails leaves the draft as it was. -/
theorem atomic_perform (edit : Edit) : DraftM.Atomic edit.perform := by
  cases edit with
  | setInitialValue value => exact FieldM.atomic_setInitialValue value
  | clearInitialValue => exact DraftM.total_change.atomic
  | addAnnotation u =>
    exact DraftM.Total.atomic (DraftM.total_change (f := ( FieldDraft.addAnnotation · u)))
  | addAttribute payload => exact FieldM.atomic_addAttribute payload

theorem maintains_perform {P : ConstantPool → Prop}
    (hadd : ∀ c, EStateM.Maintains P (PoolM.add c)) (edit : Edit) :
    EStateM.Maintains (fun s => P s.2) edit.perform := by
  cases edit with
  | setInitialValue value => exact FieldM.maintains_setInitialValue value
  | clearInitialValue => exact DraftM.maintains_change
  | addAnnotation u => exact DraftM.maintains_change (f := ( FieldDraft.addAnnotation · u))
  | addAttribute payload =>
    exact (DraftM.maintains_onPool (PoolM.maintains_addAttribute hadd payload)).bind fun _ =>
      DraftM.maintains_change

theorem fits_after {edit : Edit} (hp : pool.Faithful) (hf : Fits pool d) (he : edit.Plain) :
    (after pool d edit).2.Faithful ∧ Fits (after pool d edit).2 (after pool d edit).1 := by
  rw [after]
  cases h : edit.perform (d, pool) with
  | ok u s =>
    rw [EStateM.left_of_ok h]
    exact fits_perform hp hf he h
  | error fault s =>
    rw [EStateM.left_of_error h, atomic_perform edit h]
    obtain ⟨hp', hg⟩ : s.2.Faithful ∧ pool.Grows s.2 :=
      (maintains_perform (PoolM.maintains_add PoolM.faithful_add_of_grows) edit).of_error h
        ⟨hp, .refl pool⟩
    exact ⟨hp', hf.grows hg⟩

theorem Reachable.fits (h : Reachable pool d) : pool.Faithful ∧ Fits pool d := by
  induction h with
  | make hp h => exact ⟨hp.faithful, fits_make h⟩
  | ofField hp h => exact ⟨hp.faithful, (valid_ofField h).1.fits⟩
  | request _ r ih =>
    have ⟨hp, hg⟩ := after_invariant PoolM.faithful_add_of_grows r ⟨ih.1, .refl _⟩
    exact ⟨hp, ih.2.grows hg⟩
  | assign _ flags name ih => exact ⟨ih.1, ih.2.initialValue, ih.2.attributes, ih.2.type⟩
  | edit _ he ih => exact fits_after ih.1 ih.2 he

/-! ### Building and taking in -/

/-- The names of the attributes that are not kept as they are were added to the pool with them. -/
theorem valid_of_stores (hs : Stores pool d r) (hf : Fits pool d)
    (hc : ∀ u ∈ d.annotations, u.check pool = .ok ()) : Valid pool d := by
  obtain ⟨initial, annotations, hi, ha, -⟩ := hs.attributes
  have hfound : pool.annotations ([] ++ annotations ++ []) = .ok (byVisibility d.annotations) :=
    annotations_eq nofun ha nofun hc
  refine ⟨fun v hv => ⟨?_, FieldType.suits_iff.mp (hf.initialValue v hv)⟩,
    fun u hu => ⟨hc u hu, held_of_annotations hfound u (mem_byVisibility.mpr hu)⟩,
    hf.attributes, hf.type⟩
  simp only [StoresInitial, Option.mem_def.mp hv] at hi
  obtain ⟨a, -, ha⟩ := hi
  exact ⟨a.name, ha.name⟩

/-- The value is taken if it suits the type. If it does not, this is a fault, and the draft has the
value that it had. -/
def Decides (pool : ConstantPool) (d : FieldDraft) (v : ConstantIndex) : Prop :=
  (d.type.Suits pool v ∧
    FieldM.setInitialValue v (d, pool) = .ok () ({ d with initialValue := some v }, pool)) ∨
  (¬ d.type.Suits pool v ∧ ∃ fault, FieldM.setInitialValue v (d, pool) = .error fault (d, pool))

theorem decides (pool : ConstantPool) (d : FieldDraft) (v : ConstantIndex) : Decides pool d v := by
  by_cases hs : d.type.Suits pool v
  · exact .inl ⟨hs, FieldM.setInitialValue_eq_ok.mpr ⟨FieldType.suits_iff.mp hs, rfl⟩⟩
  · cases h : FieldM.setInitialValue v (d, pool) with
    | ok u s => exact absurd (FieldType.suits_iff.mpr (FieldM.setInitialValue_eq_ok.mp h).1) hs
    | error fault s =>
      have hd : s.1 = d := FieldM.atomic_setInitialValue v h
      have hpool : s.2 = pool :=
        (FieldM.maintains_setInitialValue (P := (· = pool)) v).of_error h rfl
      exact .inr ⟨hs, fault, h.trans (by rw [← hd, ← hpool])⟩

/-- What a draft begins with always suits its type, and only what does can take its place. The field
that is built from a draft becomes the same draft again, with its annotations by visibility, if and
only if they all fit the pool. -/
theorem restored_of_reachable (h : Reachable pool d) :
    (∀ v, d.initialValue = some v → d.type.Suits pool v) ∧ (∀ v, Decides pool d v) ∧
    ∀ r pool', d.build pool = .ok r pool' →
      (ofField pool' r = .ok { d with annotations := byVisibility d.annotations } ↔
        ∀ u ∈ d.annotations, u.check pool' = .ok ()) := by
  obtain ⟨hp, hf⟩ := h.fits
  refine ⟨hf.initialValue, decides pool d, fun r pool' hb => ?_⟩
  obtain ⟨-, hg, hs⟩ := stores_of_build hp hb
  constructor
  · intro hr u hu
    exact ((valid_ofField hr).1.annotations u (mem_byVisibility.mpr hu)).1
  · exact fun hc => ofField_of_stores hs (valid_of_stores hs (hf.grows hg) hc)

theorem Reachable.perform {edit : Edit} (hd : Reachable pool d)
    (h : edit.perform (d, pool) = .ok () (e, pool')) (he : edit.Plain) : Reachable pool' e := by
  have hr := hd.edit he
  rwa [after, EStateM.left_of_ok h] at hr

def rateInvisible : AnnotationUse := ⟨⟨⟨6⟩, []⟩, false⟩

def rateVisible : AnnotationUse := ⟨⟨⟨6⟩, []⟩, true⟩

/-- A field of a double number. -/
def rate (annotations : List AnnotationUse) (attributes : List Attribute) : FieldDraft :=
  { flags := .ofBits .field 0x0019, name := "RATE", type := .base .double, initialValue := some ⟨3⟩
    annotations, attributes }

/-- The field gets a visible annotation and a signature. -/
theorem reachable_rate {mid : ConstantPool} {i : ConstantIndex}
    (hd : Reachable pool (rate [rateInvisible] []))
    (hi : PoolM.addText "Signature" pool = .ok i mid) :
    Reachable mid (rate [rateInvisible, rateVisible] [⟨i, [0, 2]⟩]) := by
  have hannotate : ( Edit.addAnnotation rateVisible).perform (rate [rateInvisible] [], pool) =
      .ok () (rate [rateInvisible, rateVisible] [], pool) := rfl
  have hsign : (Edit.addAttribute (Signature.mk ⟨2⟩)).perform
      (rate [rateInvisible, rateVisible] [], pool) =
        .ok () (rate [rateInvisible, rateVisible] [⟨i, [0, 2]⟩], mid) :=
    FieldM.addAttribute_eq_ok.mpr
      ⟨⟨i, [0, 2]⟩, mid, EStateM.bind_eq_ok.mpr ⟨i, mid, hi, rfl⟩, rfl⟩
  exact (hd.perform hannotate trivial).perform hsign
    (by decide : Payload.name Signature ∉ modelledNames)

/-- With all its texts in the pool, the field is built and nothing is added. -/
theorem exists_build_rate {attributes : List Attribute}
    (hname : ∃ i, PoolM.addText "RATE" pool = .ok i pool)
    (hdescriptor : ∃ i, PoolM.addText "D" pool = .ok i pool)
    (hvalue : ∃ i, PoolM.addText "ConstantValue" pool = .ok i pool)
    (hvisible : ∃ i, PoolM.addText "RuntimeVisibleAnnotations" pool = .ok i pool)
    (hinvisible : ∃ i, PoolM.addText "RuntimeInvisibleAnnotations" pool = .ok i pool) :
    ∃ r, (rate [rateInvisible, rateVisible] attributes).build pool = .ok r pool := by
  obtain ⟨name, hname⟩ := hname
  obtain ⟨descriptor, hdescriptor⟩ := hdescriptor
  obtain ⟨i, hi⟩ := hvalue
  obtain ⟨x, hx⟩ := hvisible
  obtain ⟨y, hy⟩ := hinvisible
  have hinitial : (rate [rateInvisible, rateVisible] attributes).addInitial pool =
      .ok [⟨i, [0, 3]⟩] pool :=
    EStateM.map_eq_ok.mpr ⟨_, EStateM.bind_eq_ok.mpr ⟨i, pool, hi, rfl⟩, rfl⟩
  have hannotations : PoolM.addAnnotations [rateInvisible, rateVisible] pool =
      .ok [⟨x, [0, 1, 0, 6, 0, 0]⟩, ⟨y, [0, 1, 0, 6, 0, 0]⟩] pool := by
    refine EStateM.bind_eq_ok.mpr ⟨_, pool, rfl, EStateM.bind_eq_ok.mpr ⟨_, pool, rfl, ?_⟩⟩
    exact EStateM.bind_eq_ok.mpr ⟨_, pool, hx, EStateM.bind_eq_ok.mpr ⟨_, pool, hy, rfl⟩⟩
  rw [build_eq]
  exact ⟨_, EStateM.bind_eq_ok.mpr ⟨name, pool, hname, EStateM.bind_eq_ok.mpr ⟨descriptor, pool,
    hdescriptor, EStateM.bind_eq_ok.mpr ⟨_, pool, hinitial, EStateM.map_eq_ok.mpr
      ⟨_, hannotations, rfl⟩⟩⟩⟩⟩

/-- It is stored with an invisible annotation, and gets a visible one and a signature. A text cannot
take the place of the number. -/
theorem restored_of_reachable_rate : ∃ pool i mid r,
    ofTable (WidthTable.ofList 1 [.utf8 "RATE", .utf8 "D", .double 0x3fe0000000000000,
      .utf8 "ConstantValue", .utf8 "LA;", .utf8 "RuntimeVisibleAnnotations",
      .utf8 "RuntimeInvisibleAnnotations"]) = .ok pool ∧
    ofField pool ⟨.ofBits .field 0x0019, ⟨1⟩, ⟨2⟩, [⟨⟨5⟩, [0, 3]⟩, ⟨⟨8⟩, [0, 1, 0, 6, 0, 0]⟩]⟩ =
      .ok (rate [rateInvisible] []) ∧
    Reachable mid (rate [rateInvisible, rateVisible] [⟨i, [0, 2]⟩]) ∧
    (rate [rateInvisible, rateVisible] [⟨i, [0, 2]⟩]).build mid = .ok r mid ∧
    ofField mid r = .ok (rate [rateVisible, rateInvisible] [⟨i, [0, 2]⟩]) ∧
    after mid (rate [rateInvisible, rateVisible] [⟨i, [0, 2]⟩]) (.setInitialValue ⟨1⟩) =
      (rate [rateInvisible, rateVisible] [⟨i, [0, 2]⟩], mid) := by
  obtain ⟨pool, hs⟩ : ∃ pool, ofTable (WidthTable.ofList 1 [.utf8 "RATE", .utf8 "D",
    .double 0x3fe0000000000000, .utf8 "ConstantValue", .utf8 "LA;",
    .utf8 "RuntimeVisibleAnnotations", .utf8 "RuntimeInvisibleAnnotations"]) = .ok pool := ⟨_, rfl⟩
  obtain ⟨hfield, hroom, hname, hdescriptor, hvalue, hvisible, hinvisible, hcheck⟩ :
      ofField pool ⟨.ofBits .field 0x0019, ⟨1⟩, ⟨2⟩, [⟨⟨5⟩, [0, 3]⟩, ⟨⟨8⟩, [0, 1, 0, 6, 0, 0]⟩]⟩ =
        .ok (rate [rateInvisible] []) ∧ pool.extent < capacity ∧ pool.text ⟨1⟩ = .ok "RATE" ∧
      pool.text ⟨2⟩ = .ok "D" ∧ pool.text ⟨5⟩ = .ok "ConstantValue" ∧
      pool.text ⟨7⟩ = .ok "RuntimeVisibleAnnotations" ∧
      pool.text ⟨8⟩ = .ok "RuntimeInvisibleAnnotations" ∧
      ∀ u ∈ [rateInvisible, rateVisible], u.check pool = .ok () := by
    obtain ⟨-, rfl, -⟩ := ofTable_eq_ok hs
    refine ⟨rfl, by decide, rfl, rfl, rfl, rfl, rfl, ?_⟩
    exact List.forall_mem_cons.mpr ⟨rfl, List.forall_mem_singleton.mpr rfl⟩
  obtain ⟨i, mid, hi, -⟩ := PoolM.addText_of_room "Signature" hroom
  obtain ⟨hm, hg, -⟩ := PoolM.faithful_addText (faithful_ofTable hs) hi
  have hfound : ∀ {j text}, pool.text j = .ok text → ∃ k, PoolM.addText text mid = .ok k mid :=
    fun h => PoolM.addText_of_held hm ⟨_, hg.text h⟩
  have hd := reachable_rate (.ofField (.ofTable hs) hfield) hi
  obtain ⟨r, hb⟩ :
      ∃ r, (rate [rateInvisible, rateVisible] [⟨i, [0, 2]⟩]).build mid = .ok r mid :=
    exists_build_rate (hfound hname) (hfound hdescriptor) (hfound hvalue) (hfound hvisible)
      (hfound hinvisible)
  have hc : ∀ u ∈ [rateInvisible, rateVisible], u.check mid = .ok () := fun u hu =>
    AnnotationUse.check_grows hg (hcheck u hu)
  obtain ⟨-, hdecides, hrestored⟩ := restored_of_reachable hd
  refine ⟨pool, i, mid, r, hs, hfield, hd, hb, (hrestored r mid hb).mpr hc, ?_⟩
  rcases hdecides ⟨1⟩ with ⟨hsuits, -⟩ | ⟨-, fault, hset⟩
  · obtain ⟨_, ⟨⟩, c, htext, ha⟩ := hsuits
    cases htext.symm.trans (text_eq_ok.mp (hg.text hname))
    cases ha
  · exact EStateM.left_of_error hset

end FieldDraft

end Classfile
