import Classfile.Proofs.Annotation.Held
import Classfile.Proofs.Annotation.Writable
import Classfile.Proofs.Pool.Refusals

/-!
What becomes of annotations that are stored. Each visibility that occurs has one attribute, and the
names of these attributes are all that the pool can gain. What is found among the attributes are the
same annotations, visible ones first, and storing these is to no effect.
-/
namespace Classfile

open ConstantPool

variable {pool pool' : ConstantPool} {uses : List AnnotationUse} {attributes : List Attribute}
  {entries : List (String × List UInt8)} {e : Fault}

/-! ### Adding attributes by their names -/

namespace PoolM

/-- Add the names of some attributes whose bytes are there already. -/
def addEach : List (String × List UInt8) → PoolM (List Attribute)
  | [] => return []
  | (name, info) :: entries => do
    let i ← addText name
    return ⟨i, info⟩ :: (← addEach entries)

/-- The bytes under the index at which the name is looked up. -/
def AddedAs (pool : ConstantPool) (entry : String × List UInt8) (a : Attribute) : Prop :=
  pool.lookupText entry.1 = some a.name ∧ a.info = entry.2

/-- Names that are all there are not added once more. -/
theorem addEach_of_added (h : List.Forall₂ (AddedAs pool) entries attributes) :
    addEach entries pool = .ok attributes pool := by
  induction h with
  | nil => rfl
  | @cons entry a entries attributes ha _ ih =>
    obtain ⟨name, info⟩ := entry
    obtain ⟨i, _⟩ := a
    obtain ⟨hl, rfl⟩ := ha
    refine EStateM.bind_eq_ok.mpr ⟨i, pool, add_of_lookup hl, ?_⟩
    exact EStateM.map_eq_ok.mpr ⟨attributes, ih, rfl⟩

/-- The constants of the first pool and behind them those of the texts that it did not hold. -/
def Gains (pool pool' : ConstantPool) (texts : List String) : Prop :=
  ∃ new, pool'.toList = pool.toList ++ new ∧
    new.map (·.2) = (texts.filter fun text => pool.lookupText text = none).map Constant.utf8

theorem gains_nil : Gains pool pool [] := ⟨[], (List.append_nil _).symm, rfl⟩

theorem lookupText_addText {text other : String} {i : ConstantIndex}
    (h : addText text pool = .ok i pool') (hne : other ≠ text) :
    pool'.lookupText other = pool.lookupText other := by
  rcases add_eq_ok h with ⟨-, rfl⟩ | ⟨-, -, -, rfl⟩
  · rfl
  · have hc : ¬ (Constant.utf8 text == Constant.utf8 other) = true := fun he =>
      hne (Constant.utf8.inj (eq_of_beq he)).symm
    rw [lookupText, ConstantPool.lookup, Std.HashMap.getElem?_insert, if_neg hc]
    rfl

theorem Gains.cons {mid : ConstantPool} {text : String} {texts : List String} {i : ConstantIndex}
    (h : addText text pool = .ok i mid) (hn : text ∉ texts) (hg : Gains mid pool' texts) :
    Gains pool pool' (text :: texts) := by
  obtain ⟨new, hl, hc⟩ := hg
  -- the other texts are looked up as before
  have hf : texts.filter (fun t => mid.lookupText t = none) =
      texts.filter (fun t => pool.lookupText t = none) := by
    refine List.filter_congr fun t ht => ?_
    rw [lookupText_addText h fun he => hn (he ▸ ht)]
  rw [hf] at hc
  rcases add_eq_ok h with ⟨hs, rfl⟩ | ⟨hs, -, -, rfl⟩
  · refine ⟨new, hl, ?_⟩
    rw [List.filter_cons_of_neg (by simp [lookupText, hs]), hc]
  · refine ⟨(⟨UInt16.ofNat pool.extent⟩, .utf8 text) :: new, ?_, ?_⟩
    · rw [hl, toList_push, List.append_assoc, List.singleton_append]
    · rw [List.filter_cons_of_pos (by simp [lookupText, hs]), List.map_cons, List.map_cons, hc]

/-- What adding names that are all different leads to. -/
theorem addEach_eq_ok (hp : pool.Faithful) (hn : (entries.map (·.1)).Nodup)
    (h : addEach entries pool = .ok attributes pool') :
    pool'.Faithful ∧ pool.Grows pool' ∧ List.Forall₂ (AddedAs pool') entries attributes ∧
      Gains pool pool' (entries.map (·.1)) ∧
      ∀ t i, pool.lookupText t = some i → pool'.lookupText t = some i := by
  induction entries generalizing pool attributes with
  | nil =>
    obtain ⟨rfl, rfl⟩ := EStateM.pure_eq_ok.mp h
    exact ⟨hp, .refl pool, .nil, gains_nil, fun _ _ h => h⟩
  | cons entry entries ih =>
    obtain ⟨name, info⟩ := entry
    obtain ⟨i, mid, hi, h⟩ := EStateM.bind_eq_ok.mp h
    obtain ⟨as, ha, rfl⟩ := EStateM.map_eq_ok.mp h
    obtain ⟨hnot, hn⟩ := List.nodup_cons.mp hn
    obtain ⟨hm, hg, -⟩ := faithful_addText hp hi
    obtain ⟨hp', hg', hf, hgains, hl⟩ := ih hm hn ha
    have hname : mid.lookupText name = some i := lookup_of_add hi
    exact ⟨hp', hg.trans hg', .cons ⟨hl name i hname, rfl⟩ hf, hgains.cons hi hnot,
      fun t j ht => hl t j (lookup_add ht hi)⟩

/-- Adding names can only fail because one that is not there has no room. -/
theorem addEach_eq_error (h : addEach entries pool = .error e pool') :
    ∃ entry ∈ entries, e = .poolOverflow (.utf8 entry.1) pool'.extent ∧
      pool.lookupText entry.1 = none ∧ capacity ≤ pool'.extent := by
  induction entries generalizing pool with
  | nil => cases h
  | cons entry entries ih =>
    obtain ⟨name, info⟩ := entry
    rcases EStateM.bind_eq_error.mp h with h | ⟨i, mid, hi, h⟩
    · rcases addText_outcome name pool with ⟨i, mid, hi⟩ | ⟨he, hl, hx⟩
      · cases hi.symm.trans h
      · cases he.symm.trans h
        exact ⟨_, List.mem_cons_self, rfl, hl, hx⟩
    · rcases EStateM.bind_eq_error.mp h with h | ⟨_, _, -, h⟩
      · obtain ⟨entry, hm, he, hl, hx⟩ := ih h
        refine ⟨entry, List.mem_cons_of_mem _ hm, he, ?_, hx⟩
        cases hs : pool.lookupText entry.1 with
        | none => rfl
        | some j => cases hl.symm.trans (lookup_add hs hi)
      · cases h

theorem addEach_of_room (h : pool.extent + entries.length ≤ capacity) :
    ∃ attributes pool', addEach entries pool = .ok attributes pool' ∧
      pool'.extent ≤ pool.extent + entries.length := by
  induction entries generalizing pool with
  | nil => exact ⟨[], pool, rfl, Nat.le_refl _⟩
  | cons entry entries ih =>
    obtain ⟨name, info⟩ := entry
    rw [List.length_cons] at h ⊢
    have hroom : pool.extent < capacity := by omega
    obtain ⟨i, mid, hi, hx⟩ := addText_of_room name hroom
    have hrest : mid.extent + entries.length ≤ capacity := by omega
    obtain ⟨as, pool', ha, hx'⟩ := ih hrest
    refine ⟨⟨i, info⟩ :: as, pool', ?_, by omega⟩
    exact EStateM.bind_eq_ok.mpr ⟨i, mid, hi, EStateM.map_eq_ok.mpr ⟨as, ha, rfl⟩⟩

end PoolM

/-! ### One attribute for each visibility -/

/-- The visibilities that some of the annotations have, visible first. -/
def occurring (uses : List AnnotationUse) : List Bool :=
  [true, false].filter fun visible => uses.any fun u => u.visible = visible

theorem mem_occurring {visible : Bool} :
    visible ∈ occurring uses ↔ ∃ u ∈ uses, u.visible = visible := by
  simp [occurring]

theorem occurring_nodup : ((occurring uses).map annotationName).Nodup := by
  have hn : ([true, false].map annotationName).Nodup := by decide
  exact hn.sublist (List.filter_sublist.map annotationName)

theorem isEmpty_annotationsOf_eq (visible : Bool) :
    (annotationsOf visible uses).isEmpty = !uses.any fun u => u.visible = visible := by
  rw [annotationsOf, List.isEmpty_map]
  induction uses with
  | nil => rfl
  | cons u uses ih => by_cases hv : u.visible = visible <;> simp [hv, ih]

theorem length_annotationsOf_pos {visible : Bool} (h : visible ∈ occurring uses) :
    0 < (annotationsOf visible uses).length := by
  obtain ⟨u, hu, rfl⟩ := mem_occurring.mp h
  exact List.length_pos_of_mem (List.mem_map_of_mem (List.mem_filter.mpr ⟨hu, by simp⟩))

theorem occurring_eq : occurring uses =
    (bif uses.any fun u => u.visible = true then [true] else []) ++
      bif uses.any fun u => u.visible = false then [false] else [] := by
  rw [occurring, List.filter_cons, List.filter_cons, List.filter_nil]
  cases uses.any fun u => u.visible = true <;> cases uses.any fun u => u.visible = false <;> rfl

/-- The annotations of the visibilities that occur are all of them. -/
theorem flatten_occurring : ((occurring uses).map fun visible =>
    uses.filter fun u => u.visible = visible).flatten = byVisibility uses := by
  have hone : ∀ v, ((bif uses.any fun u => u.visible = v then [v] else []).map fun visible =>
      uses.filter fun u => u.visible = visible).flatten = uses.filter fun u => u.visible = v := by
    intro v
    cases h : uses.any fun u => u.visible = v with
    | true => simp
    | false =>
      refine (List.filter_eq_nil_iff.mpr fun u hu hv => ?_).symm
      exact Bool.false_ne_true (h.symm.trans (List.any_eq_true.mpr ⟨u, hu, hv⟩))
  rw [occurring_eq, List.map_append, List.flatten_append, hone, hone]
  rfl

namespace PoolM

theorem addAnnotations_eq_addEach : addAnnotations uses = (do
    let visible ← ask fun _ => annotationBytes (annotationsOf true uses)
    let invisible ← ask fun _ => annotationBytes (annotationsOf false uses)
    addEach ((occurring uses).map fun v => (annotationName v, bif v then visible else invisible)))
    := by
  rw [addAnnotations_eq, isEmpty_annotationsOf_eq, isEmpty_annotationsOf_eq, occurring_eq]
  cases uses.any fun u => u.visible = true <;> cases uses.any fun u => u.visible = false <;>
    simp [addNamed, addEach, annotationName]

theorem addAnnotations_eq_ok_iff : addAnnotations uses pool = .ok attributes pool' ↔
    ∃ bytes : Bool → List UInt8, (∀ v, annotationBytes (annotationsOf v uses) = .ok (bytes v)) ∧
      addEach ((occurring uses).map fun v => (annotationName v, bytes v)) pool =
        .ok attributes pool' := by
  rw [addAnnotations_eq_addEach]
  constructor
  · intro h
    obtain ⟨visible, mid, ha, h⟩ := EStateM.bind_eq_ok.mp h
    obtain ⟨hv, rfl⟩ := ask_eq_ok.mp ha
    obtain ⟨invisible, mid, ha, h⟩ := EStateM.bind_eq_ok.mp h
    obtain ⟨hi, rfl⟩ := ask_eq_ok.mp ha
    exact ⟨fun v => bif v then visible else invisible, Bool.forall_bool.mpr ⟨hi, hv⟩, h⟩
  · rintro ⟨bytes, hb, h⟩
    refine EStateM.bind_eq_ok.mpr ⟨bytes true, pool, ask_eq_ok.mpr ⟨hb true, rfl⟩, ?_⟩
    refine EStateM.bind_eq_ok.mpr ⟨bytes false, pool, ask_eq_ok.mpr ⟨hb false, rfl⟩, ?_⟩
    rwa [show (fun v => (annotationName v, bif v then bytes true else bytes false)) =
      fun v => (annotationName v, bytes v) from funext (Bool.forall_bool.mpr ⟨rfl, rfl⟩)]

/-- Annotations that can be written are stored if there is room for the names of both attributes. -/
theorem addAnnotations_of_room (hl : uses.length ≤ 65535) (hw : ∀ u ∈ uses, u.body.Writable)
    (hx : pool.extent + 2 ≤ capacity) : ∃ attributes pool',
      addAnnotations uses pool = .ok attributes pool' ∧ pool'.extent ≤ pool.extent + 2 := by
  have hcount : ∀ v, (annotationsOf v uses).length ≤ 65535 := fun v =>
    Nat.le_trans (length_annotationsOf_le v) hl
  obtain ⟨bytes, hb⟩ := Classical.skolem.mp fun v => exists_annotationBytes_of_uses (hcount v) hw
  have hn : ((occurring uses).map fun v => (annotationName v, bytes v)).length ≤ 2 := by
    rw [List.length_map]
    exact List.length_filter_le _ _
  obtain ⟨attributes, pool', ha, hx'⟩ :=
    addEach_of_room (Nat.le_trans (Nat.add_le_add_left hn _) hx)
  exact ⟨attributes, pool', addAnnotations_eq_ok_iff.mpr ⟨bytes, hb, ha⟩,
    Nat.le_trans hx' (Nat.add_le_add_left hn _)⟩

/-- Either the annotations of one visibility cannot be written, or the names cannot be added. -/
theorem addAnnotations_eq_error (h : addAnnotations uses pool = .error e pool') :
    (∃ v, annotationBytes (annotationsOf v uses) = .error e ∧ pool' = pool) ∨
    ∃ bytes : Bool → List UInt8,
      addEach ((occurring uses).map fun v => (annotationName v, bytes v)) pool =
        .error e pool' := by
  rw [addAnnotations_eq_addEach] at h
  rcases EStateM.bind_eq_error.mp h with h | ⟨visible, mid, ha, h⟩
  · obtain ⟨he, rfl⟩ := ask_eq_error.mp h
    exact .inl ⟨true, he, rfl⟩
  obtain ⟨-, rfl⟩ := ask_eq_ok.mp ha
  rcases EStateM.bind_eq_error.mp h with h | ⟨invisible, mid, ha, h⟩
  · obtain ⟨he, rfl⟩ := ask_eq_error.mp h
    exact .inl ⟨false, he, rfl⟩
  obtain ⟨-, rfl⟩ := ask_eq_ok.mp ha
  exact .inr ⟨_, h⟩

end PoolM

theorem annotationBytes_eq_error {annotations : List Annotation}
    (h : annotationBytes annotations = .error e) :
    (65535 < annotations.length ∧ e = .format (.tooManyAnnotations annotations.length)) ∨
    (e = .format .tooManyElements ∧ ∃ a ∈ annotations, ¬ a.Bounded) := by
  by_cases hl : annotations.length > 65535
  · rw [annotationBytes, if_pos hl] at h
    exact .inl ⟨hl, (Except.error.inj h).symm⟩
  · rw [annotationBytes, if_neg hl, Writer.counted, if_neg hl, Writer.each] at h
    refine .inr ?_
    cases hm : annotations.mapM Annotation.write with
    | ok pieces =>
      rw [hm] at h
      cases h
    | error cause =>
      rw [hm] at h
      cases h
      obtain ⟨before, a, after, rfl, -, ha⟩ := Except.mapM_eq_error.mp hm
      have hcause := Annotation.write_eq_error ha
      refine ⟨congrArg Fault.format hcause, a, by simp, fun hb => ?_⟩
      obtain ⟨bytes, hw⟩ := hb.writable
      cases hw.symm.trans ha

namespace ConstantPool

variable {a : Attribute} {visible : Bool}

/-- The attribute for a visibility: its name, and its bytes behind a count that is not zero. -/
structure HoldsEntries (pool : ConstantPool) (uses : List AnnotationUse) (visible : Bool)
    (a : Attribute) : Prop where
  name : pool.attributeName a = .ok (annotationName visible)
  info : Writer.counted Annotation.write (annotationsOf visible uses) = .ok a.info
  count : BigEndian.unpack (a.info.take 2) = (annotationsOf visible uses).length
  count_pos : 0 < (annotationsOf visible uses).length

theorem annotationsIn_of_holds (h : pool.HoldsEntries uses visible a) :
    pool.annotationsIn a = .ok (uses.filter fun u => u.visible = visible) := by
  rw [← annotationsOf_map]
  cases visible with
  | true => exact annotationsIn_visible (p := ⟨annotationsOf true uses⟩) ⟨h.name, h.info⟩
  | false => exact annotationsIn_invisible (p := ⟨annotationsOf false uses⟩) ⟨h.name, h.info⟩

theorem count_of_counted {α : Type} {write : α → Except FormatError (List UInt8)} {xs : List α}
    {bytes : List UInt8} (h : Writer.counted write xs = .ok bytes) :
    BigEndian.unpack (bytes.take 2) = xs.length := by
  by_cases hl : xs.length > 65535
  · simp [Writer.counted, hl] at h
  · rw [Writer.counted, if_neg hl] at h
    obtain ⟨body, -, rfl⟩ := Except.map_eq_ok.mp h
    rw [List.take_left' (BigEndian.length_pack 2 xs.length), BigEndian.unpack_pack]
    exact Nat.mod_eq_of_lt (Nat.lt_succ_of_le (Nat.le_of_not_lt hl))

/-- The annotations are found again, in the order of the attributes. -/
theorem annotations_of_held
    (h : List.Forall₂ (pool.HoldsEntries uses) (occurring uses) attributes)
    (hc : ∀ u ∈ uses, u.check pool = .ok ()) :
    pool.annotations attributes = .ok (byVisibility uses) := by
  have hm : attributes.mapM pool.annotationsIn = .ok ((occurring uses).map fun visible =>
      uses.filter fun u => u.visible = visible) := by
    refine Except.mapM_eq_ok.mpr (List.forall₂_map_right_iff.mpr ?_)
    exact List.Forall₂.flip (h.imp fun _ _ ha => annotationsIn_of_holds ha)
  have hck : (byVisibility uses).forM (fun u => u.check pool) = .ok () :=
    Except.forM_eq_ok.mpr fun u hu => hc u (mem_byVisibility.mp hu)
  rw [annotations, hm, Except.ok_bind, flatten_occurring]
  exact Except.bind_eq_ok.mpr ⟨(), hck, rfl⟩

/-- What is so after some annotations were stored in a pool. -/
structure KeepsEntries (pool : ConstantPool) (uses : List AnnotationUse)
    (attributes : List Attribute) (pool' : ConstantPool) : Prop where
  found : pool'.annotations attributes = .ok (byVisibility uses)
  held : List.Forall₂ (pool'.HoldsEntries uses) (occurring uses) attributes
  gains : PoolM.Gains pool pool' ((occurring uses).map annotationName)
  unchanged : uses = [] → attributes = [] ∧ pool' = pool
  again : PoolM.addAnnotations (byVisibility uses) pool' = .ok attributes pool'

theorem keepsEntries_of_ok (hp : pool.Faithful) (hc : ∀ u ∈ uses, u.check pool = .ok ())
    (h : PoolM.addAnnotations uses pool = .ok attributes pool') :
    pool.KeepsEntries uses attributes pool' := by
  obtain ⟨bytes, hb, ha⟩ := PoolM.addAnnotations_eq_ok_iff.mp h
  have hnames : ((occurring uses).map fun v => (annotationName v, bytes v)).map (·.1) =
      (occurring uses).map annotationName := by
    rw [List.map_map]
    rfl
  obtain ⟨hp', hg, hf, hgains, -⟩ := PoolM.addEach_eq_ok hp (hnames ▸ occurring_nodup) ha
  have hheld : List.Forall₂ (pool'.HoldsEntries uses) (occurring uses) attributes := by
    have hpos := (List.forall₂_and_left (occurring uses) attributes).mpr
      ⟨fun _ hv => length_annotationsOf_pos hv, List.forall₂_map_left_iff.mp hf⟩
    refine hpos.imp fun v a ⟨hpos, hl, hi⟩ => ?_
    have hw : Writer.counted Annotation.write (annotationsOf v uses) = .ok a.info :=
      hi ▸ annotationBytes_eq_ok (hb v)
    exact ⟨text_eq_ok.mpr (hp'.get_lookup hl), hw, count_of_counted hw, hpos⟩
  refine ⟨annotations_of_held hheld fun u hu => AnnotationUse.check_grows hg (hc u hu), hheld,
    hnames ▸ hgains, ?_, ?_⟩
  · rintro rfl
    obtain ⟨rfl, rfl⟩ := EStateM.pure_eq_ok.mp ha
    exact ⟨rfl, rfl⟩
  · rw [PoolM.addAnnotations_byVisibility]
    exact PoolM.addAnnotations_eq_ok_iff.mpr ⟨bytes, hb, PoolM.addEach_of_added hf⟩

/-- Why annotations are not stored, and the pool that is left then. -/
inductive Declines (pool : ConstantPool) (uses : List AnnotationUse) : Fault → ConstantPool → Prop
  | tooMany {visible : Bool} (count : 65535 < (annotationsOf visible uses).length) :
      Declines pool uses (.format (.tooManyAnnotations (annotationsOf visible uses).length)) pool
  | unbounded {u : AnnotationUse} (member : u ∈ uses) (count : ¬ u.body.Bounded) :
      Declines pool uses (.format .tooManyElements) pool
  | overflow {visible : Bool} {pool' : ConstantPool} (occurs : visible ∈ occurring uses)
      (absent : pool.lookupText (annotationName visible) = none) (full : capacity ≤ pool'.extent) :
      Declines pool uses (.poolOverflow (.utf8 (annotationName visible)) pool'.extent) pool'

theorem declines_of_error (h : PoolM.addAnnotations uses pool = .error e pool') :
    pool.Declines uses e pool' := by
  rcases PoolM.addAnnotations_eq_error h with ⟨v, hv, rfl⟩ | ⟨bytes, hb⟩
  · rcases annotationBytes_eq_error hv with ⟨hl, rfl⟩ | ⟨rfl, a, ha, hb⟩
    · exact .tooMany hl
    · obtain ⟨u, hu, rfl⟩ := List.mem_map.mp ha
      exact .unbounded (List.mem_filter.mp hu).1 hb
  · obtain ⟨entry, hm, rfl, hl, hx⟩ := PoolM.addEach_eq_error hb
    obtain ⟨v, hv, rfl⟩ := List.mem_map.mp hm
    exact .overflow hv hl hx

/-- Annotations that fit the pool are found again after they were stored, visible ones first, in one
attribute for each visibility that occurs. Nothing but the names of these attributes is added to the
pool, and storing what was found changes nothing more. They can only be refused because there are
too many of something, or because a name has no room. -/
theorem addAnnotations_entries (hp : pool.Obtained) (hc : ∀ u ∈ uses, u.check pool = .ok ()) :
    (∀ attributes pool', PoolM.addAnnotations uses pool = .ok attributes pool' →
      pool.KeepsEntries uses attributes pool') ∧
    ∀ e pool', PoolM.addAnnotations uses pool = .error e pool' → pool.Declines uses e pool' :=
  ⟨fun _ _ => keepsEntries_of_ok hp.faithful hc, fun _ _ => declines_of_error⟩

/-- An invisible annotation with an array in it, and a visible one. -/
def mixedUses : List AnnotationUse :=
  [⟨⟨⟨1⟩, [(⟨2⟩, .array [.string ⟨2⟩, .string ⟨1⟩])]⟩, false⟩, ⟨⟨⟨1⟩, []⟩, true⟩]

/-- They come back the other way round, in two attributes, and neither changes any more. -/
theorem addAnnotations_entries_mixed : ∃ pool attributes pool',
    ofTable (WidthTable.ofList 1 [.utf8 "LA;", .utf8 "x"]) = .ok pool ∧
    PoolM.addAnnotations mixedUses pool = .ok attributes pool' ∧
    pool'.annotations attributes = .ok mixedUses.reverse ∧ attributes.length = 2 ∧
    PoolM.addAnnotations mixedUses.reverse pool' = .ok attributes pool' := by
  obtain ⟨pool, hs⟩ : ∃ pool, ofTable (WidthTable.ofList 1 [.utf8 "LA;", .utf8 "x"]) = .ok pool :=
    ⟨_, rfl⟩
  obtain ⟨hx, hc⟩ : pool.extent = 3 ∧ ∀ u ∈ mixedUses, u.check pool = .ok () := by
    obtain ⟨-, rfl, -⟩ := ofTable_eq_ok hs
    exact ⟨rfl, List.forall_mem_cons.mpr ⟨rfl, List.forall_mem_singleton.mpr rfl⟩⟩
  obtain ⟨bytes, hb⟩ := Classical.skolem.mp
    (show ∀ v, ∃ info, annotationBytes (annotationsOf v mixedUses) = .ok info from
      Bool.forall_bool.mpr ⟨⟨_, rfl⟩, ⟨_, rfl⟩⟩)
  have hroom : pool.extent +
      ((occurring mixedUses).map fun v => (annotationName v, bytes v)).length ≤ capacity := by
    rw [hx, List.length_map]
    decide
  obtain ⟨attributes, pool', ha, -⟩ := PoolM.addEach_of_room hroom
  have ha := PoolM.addAnnotations_eq_ok_iff.mpr ⟨bytes, hb, ha⟩
  have h := (addAnnotations_entries (.ofTable hs) hc).1 attributes pool' ha
  exact ⟨pool, attributes, pool', hs, ha, h.found, h.held.length_eq.symm, h.again⟩

end ConstantPool

end Classfile
