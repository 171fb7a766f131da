import Classfile.Proofs.Annotation.Held
import Classfile.Proofs.Code.Decoded
import Classfile.Proofs.Draft.Method

/-!
A draft that was made of a stored method is in order: its tables refer to its instructions, and
every index in it has been checked. Each attribute that is taken in keeps it so.
-/
namespace Classfile

open InstructionSeq ConstantPool

variable {pool : ConstantPool} {d e : MethodDraft} {code : DecodedCode} {length : Nat}
  {owner : String} {m : Method} {a : Attribute} {body : CodeBody}

namespace MethodDraft

/-- The names of all attributes that the draft is stored in are in the pool. -/
structure NamesHeld (pool : ConstantPool) (d : MethodDraft) : Prop where
  code : d.instructions.isEmpty = false → pool.Held (Payload.name CodeBody)
  lines : ∀ line ∈ d.lines.toList, pool.Held (Payload.name LineNumberTable)
  scopes : ∀ scope ∈ d.scopes, pool.Held (Payload.name LocalVariableTable)
  typeScopes : ∀ scope ∈ d.typeScopes, pool.Held (Payload.name LocalVariableTypeTable)
  exceptions : ∀ i ∈ d.exceptions, pool.Held (Payload.name Exceptions)
  annotations : ∀ u ∈ d.annotations, pool.Held (annotationName u.visible)
  parameterAnnotations : ∀ u ∈ d.parameterAnnotations.flatten,
    pool.Held (parameterAnnotationName u.visible)

/-- A draft that can be stored and read back, without adding to the pool. -/
structure Valid (pool : ConstantPool) (d : MethodDraft) : Prop where
  kept : Kept pool d
  tables : TablesFit d
  fits : FitsPool pool d
  names : NamesHeld pool d
  attributes : ∀ a ∈ d.attributes, a.Apart pool modelledNames
  descriptor : MethodDescriptor.parse d.descriptor.describe = .ok d.descriptor

theorem range_spans (hs : code.Sound pool) {place : Boundary} {start : UInt16} {stop : Nat}
    {first last : Handle} (h : d.range code length place start stop = .ok (first, last)) :
    code.instructions.Spans first last := by
  obtain ⟨hf, -, hlt, hl⟩ := range_eq_ok.mp h
  exact hs.spans hf hl hlt

theorem wrapHandler_spec (hs : code.Sound pool) {stored : ExceptionHandler} {range : GuardedRange}
    (h : wrapHandler pool d code length stored = .ok range) :
    code.instructions.Spans range.first range.last ∧ code.instructions.contains range.handler ∧
      ∀ i ∈ range.catchType, pool.checked .typeName i = .ok i := by
  obtain ⟨⟨first, last⟩, hr, h⟩ := Except.bind_eq_ok.mp h
  obtain ⟨handler, hh, h⟩ := Except.bind_eq_ok.mp h
  obtain ⟨catchType, hc, rfl⟩ := Except.map_eq_ok.mp h
  refine ⟨range_spans hs hr, hs.contains_handleAt? (boundary_eq_ok.mp hh), ?_⟩
  intro i hi
  cases ht : stored.catchType with
  | none =>
    rw [ht] at hc
    cases hc
    cases hi
  | some j =>
    rw [ht, Option.mapM_some] at hc
    obtain ⟨k, hk, rfl⟩ := Except.map_eq_ok.mp hc
    cases hi
    obtain ⟨rfl, -⟩ := checked_eq_ok.mp hk
    exact hk

theorem wrapLine_spec (hs : code.Sound pool) {stored : LineNumber} {line : Handle × UInt16}
    (h : wrapLine d code stored = .ok line) : code.instructions.contains line.1 := by
  obtain ⟨g, hg, rfl⟩ := Except.map_eq_ok.mp h
  exact hs.contains_handleAt? (boundary_eq_ok.mp hg)

theorem wrapScope_spec (hs : code.Sound pool) {stored : VariableRange} {scope : VariableScope}
    (h : wrapScope pool d code length stored = .ok (some scope)) :
    code.instructions.Spans scope.first scope.last ∧
      (∃ name, pool.text scope.name = .ok name) ∧
        ∃ descriptor, pool.text scope.descriptor = .ok descriptor := by
  unfold wrapScope at h
  split at h
  · cases h
  · obtain ⟨⟨first, last⟩, hr, h⟩ := Except.bind_eq_ok.mp h
    obtain ⟨_, hn, h⟩ := Except.bind_eq_ok.mp h
    obtain ⟨name, hn, -⟩ := Except.map_eq_ok.mp hn
    obtain ⟨_, hd, h⟩ := Except.bind_eq_ok.mp h
    obtain ⟨descriptor, hd, -⟩ := Except.map_eq_ok.mp hd
    cases h
    exact ⟨range_spans hs hr, ⟨name, hn⟩, descriptor, hd⟩

theorem wrapScopes_spec (hs : code.Sound pool) {ranges : List VariableRange}
    {scopes : List VariableScope} (h : wrapScopes pool d code length ranges = .ok scopes) :
    ∀ scope ∈ scopes, code.instructions.Spans scope.first scope.last ∧
      (∃ name, pool.text scope.name = .ok name) ∧
        ∃ descriptor, pool.text scope.descriptor = .ok descriptor := by
  obtain ⟨found, hf, rfl⟩ := Except.map_eq_ok.mp h
  intro scope hi
  obtain ⟨s, hm, rfl⟩ := List.mem_filterMap.mp hi
  obtain ⟨stored, -, hw⟩ := Except.exists_of_mem_mapM hf hm
  exact wrapScope_spec hs hw

/-! ### Taking in an attribute keeps the draft in order -/

/-- An attribute of code is taken in as a table or kept as it is. -/
theorem absorbCode_eq_ok (h : absorbCode pool code length d a = .ok e) :
    (∃ p, ∃ lines : List (Handle × UInt16), pool.payload? LineNumberTable a = .ok (some p) ∧
      p.lines.mapM (wrapLine d code) = .ok lines ∧ e = { d with lines := d.lines ++ lines }) ∨
    (∃ p scopes, pool.payload? LocalVariableTable a = .ok (some p) ∧
      wrapScopes pool d code length p.ranges = .ok scopes ∧
        e = { d with scopes := d.scopes ++ scopes }) ∨
    (∃ p scopes, pool.payload? LocalVariableTypeTable a = .ok (some p) ∧
      wrapScopes pool d code length p.ranges = .ok scopes ∧
        e = { d with typeScopes := d.typeScopes ++ scopes }) ∨
    (a.Apart pool tableNames ∧ e = { d with codeAttributes := d.codeAttributes ++ [a] }) := by
  obtain ⟨q, hl, h⟩ := Except.bind_eq_ok.mp h
  cases q with
  | some p =>
    obtain ⟨lines, hm, rfl⟩ := Except.map_eq_ok.mp h
    exact .inl ⟨p, lines, hl, hm, rfl⟩
  | none =>
    obtain ⟨q, hv, h⟩ := Except.bind_eq_ok.mp h
    cases q with
    | some p =>
      obtain ⟨scopes, hm, rfl⟩ := Except.map_eq_ok.mp h
      exact .inr (.inl ⟨p, scopes, hv, hm, rfl⟩)
    | none =>
      obtain ⟨q, ht, h⟩ := Except.bind_eq_ok.mp h
      cases q with
      | some p =>
        obtain ⟨scopes, hm, rfl⟩ := Except.map_eq_ok.mp h
        exact .inr (.inr (.inl ⟨p, scopes, ht, hm, rfl⟩))
      | none =>
        cases h
        refine .inr (.inr (.inr ⟨?_, rfl⟩))
        obtain ⟨name, hn, hne⟩ := payload?_eq_none hl
        obtain ⟨_, hn', hne'⟩ := payload?_eq_none hv
        obtain ⟨_, hn'', hne''⟩ := payload?_eq_none ht
        rw [hn] at hn' hn''
        cases hn'
        cases hn''
        exact ⟨name, hn, by simp [tableNames, hne, hne', hne'']⟩

/-- More scopes, in the one table or in the other, leave a draft in order. -/
theorem valid_withScopes {scopes typeScopes added : List VariableScope} (hv : Valid pool d)
    (hall : ∀ scope ∈ scopes ++ typeScopes, scope ∈ d.scopes ++ d.typeScopes ∨ scope ∈ added)
    (hnew : ∀ scope ∈ added, d.instructions.Spans scope.first scope.last ∧
      (∃ name, pool.text scope.name = .ok name) ∧
        ∃ descriptor, pool.text scope.descriptor = .ok descriptor)
    (hs : ∀ scope ∈ scopes, pool.Held (Payload.name LocalVariableTable))
    (ht : ∀ scope ∈ typeScopes, pool.Held (Payload.name LocalVariableTypeTable)) :
    Valid pool { d with scopes, typeScopes } := by
  refine ⟨⟨hv.kept.linked, ?_, hv.kept.codeAttributes, hv.kept.attributes⟩,
    ⟨hv.tables.handlers, hv.tables.lines, ?_⟩, { hv.fits with },
    { hv.names with scopes := hs, typeScopes := ht }, hv.attributes, hv.descriptor⟩
  · intro scope hm
    rcases hall scope hm with hm | hm
    · exact hv.kept.scopes scope hm
    · exact (hnew scope hm).2
  · intro scope hm
    rcases hall scope hm with hm | hm
    · exact hv.tables.scopes scope hm
    · exact (hnew scope hm).1

theorem valid_absorbCode (hs : code.Sound pool) (ha : a.Fits)
    (hv : Valid pool d ∧ d.instructions = code.instructions)
    (h : absorbCode pool code length d a = .ok e) :
    Valid pool e ∧ e.instructions = code.instructions := by
  obtain ⟨hv, hi⟩ := hv
  rcases absorbCode_eq_ok h with ⟨p, lines, hp, hm, rfl⟩ | ⟨p, scopes, hp, hm, rfl⟩ |
    ⟨p, scopes, hp, hm, rfl⟩ | ⟨hap, rfl⟩
  · refine ⟨⟨{ hv.kept with }, ⟨hv.tables.handlers, ?_, hv.tables.scopes⟩, { hv.fits with },
      { hv.names with lines := fun _ _ => held_of_payload? hp }, hv.attributes, hv.descriptor⟩, hi⟩
    intro line hl
    rw [Array.toList_appendList, List.mem_append] at hl
    rcases hl with hl | hl
    · exact hv.tables.lines line hl
    · obtain ⟨stored, -, hw⟩ := Except.exists_of_mem_mapM hm hl
      exact hi ▸ wrapLine_spec hs hw
  · refine ⟨valid_withScopes hv (fun scope hm => ?_) (hi ▸ wrapScopes_spec hs hm)
      (fun _ _ => held_of_payload? hp) hv.names.typeScopes, hi⟩
    simp only [List.mem_append] at hm ⊢
    rcases hm with (hm | hm) | hm <;> simp [hm]
  · refine ⟨valid_withScopes hv (fun scope hm => ?_) (hi ▸ wrapScopes_spec hs hm)
      hv.names.scopes (fun _ _ => held_of_payload? hp), hi⟩
    rwa [← List.append_assoc, List.mem_append] at hm
  · refine ⟨⟨⟨hv.kept.linked, hv.kept.scopes, ?_, hv.kept.attributes⟩, { hv.tables with },
      { hv.fits with }, { hv.names with }, hv.attributes, hv.descriptor⟩, hi⟩
    intro b hb
    rcases List.mem_append.mp hb with hb | hb
    · exact hv.kept.codeAttributes b hb
    · cases List.mem_singleton.mp hb
      exact ⟨ha, hap⟩

theorem valid_wrapCode (hn : pool.Held (Payload.name CodeBody)) (hc : body.code.length < 2 ^ 32)
    (ha : ∀ a ∈ body.attributes, a.Fits) (hv : Valid pool d) (h : d.wrapCode pool body = .ok e) :
    Valid pool e := by
  obtain ⟨code, hdec, h⟩ := Except.bind_eq_ok.mp h
  obtain ⟨handlers, hh, h⟩ := Except.bind_eq_ok.mp h
  have hs := sound_decodeCode hdec hc
  have hspec : ∀ range ∈ handlers, code.instructions.Spans range.first range.last ∧
      code.instructions.contains range.handler ∧
        ∀ i ∈ range.catchType, pool.checked .typeName i = .ok i := by
    intro range hr
    obtain ⟨stored, -, hw⟩ := Except.exists_of_mem_mapM hh hr
    exact wrapHandler_spec hs hw
  refine (Except.foldlM_invariant (P := fun e => Valid pool e ∧ e.instructions = code.instructions)
    ⟨?_, rfl⟩ (fun d hv a hm e he => valid_absorbCode hs (ha a hm) hv he) h).1
  exact ⟨⟨hs.linked, by simp, by simp, hv.kept.attributes⟩,
    ⟨fun range hr => ⟨(hspec range hr).1, (hspec range hr).2.1⟩, by simp, by simp⟩,
    ⟨fun item hm => (hs.readable item hm).wellTyped, fun range hr => (hspec range hr).2.2,
      hv.fits.exceptions, hv.fits.annotations, hv.fits.parameterAnnotations⟩,
    ⟨fun _ => hn, by simp, by simp, by simp, hv.names.exceptions, hv.names.annotations,
      hv.names.parameterAnnotations⟩, hv.attributes, hv.descriptor⟩

/-- An attribute of a method is taken in as its code or as declared exceptions, is left to the
annotations, or is kept as it is. -/
theorem absorb_eq_ok (h : absorb pool d a = .ok e) :
    (∃ body, pool.payload? CodeBody a = .ok (some body) ∧ d.wrapCode pool body = .ok e) ∨
    (∃ p types, pool.payload? Exceptions a = .ok (some p) ∧
      p.types.mapM (pool.checked .typeName) = .ok types ∧
        e = { d with exceptions := d.exceptions ++ types }) ∨
    (a.Named pool modelledNames ∧ e = d) ∨
    (a.Apart pool modelledNames ∧ e = { d with attributes := d.attributes ++ [a] }) := by
  obtain ⟨name, hn, h⟩ := Except.bind_eq_ok.mp h
  obtain ⟨q, hc, h⟩ := Except.bind_eq_ok.mp h
  cases q with
  | some body => exact .inl ⟨body, hc, h⟩
  | none =>
    obtain ⟨q, he, h⟩ := Except.bind_eq_ok.mp h
    cases q with
    | some p =>
      obtain ⟨types, ht, rfl⟩ := Except.map_eq_ok.mp h
      exact .inr (.inl ⟨p, types, he, ht, rfl⟩)
    | none =>
      dsimp only at h
      split at h
      · rename_i hk
        cases h
        have hm := isAnnotationAttribute_iff.mp hk
        exact .inr (.inr (.inl ⟨⟨name, List.mem_append_right _ hm, hn⟩, rfl⟩))
      · rename_i hk
        cases h
        refine .inr (.inr (.inr ⟨?_, rfl⟩))
        obtain ⟨_, hn', hcode⟩ := payload?_eq_none hc
        obtain ⟨_, hn'', hexc⟩ := payload?_eq_none he
        rw [hn] at hn' hn''
        cases hn'
        cases hn''
        rw [isAnnotationAttribute_iff] at hk
        refine ⟨name, hn, fun hm => ?_⟩
        rcases List.mem_append.mp hm with hm | hm
        · simp [hcode, hexc] at hm
        · exact hk hm

theorem valid_absorb (hv : Valid pool d) (h : absorb pool d a = .ok e) : Valid pool e := by
  rcases absorb_eq_ok h with ⟨body, hb, hw⟩ | ⟨p, types, hp, hm, rfl⟩ | ⟨-, rfl⟩ | ⟨hap, rfl⟩
  · obtain ⟨hc, ha⟩ := CodeBody.ensures_read (payload?_eq_some hb).2
    exact valid_wrapCode (held_of_payload? hb) hc ha hv hw
  · refine ⟨{ hv.kept with }, { hv.tables with }, { hv.fits with exceptions := ?_ },
      { hv.names with exceptions := fun _ _ => held_of_payload? hp }, hv.attributes,
      hv.descriptor⟩
    intro i hi
    rcases List.mem_append.mp hi with hi | hi
    · exact hv.fits.exceptions i hi
    · obtain ⟨j, -, hj⟩ := Except.exists_of_mem_mapM hm hi
      obtain ⟨rfl, -⟩ := checked_eq_ok.mp hj
      exact hj
  · exact hv
  · obtain ⟨name, hname, hne⟩ := hap
    refine ⟨{ hv.kept with attributes := ?_ }, { hv.tables with }, { hv.fits with },
      { hv.names with }, ?_, hv.descriptor⟩
    · intro b hb
      rcases List.mem_append.mp hb with hb | hb
      · exact hv.kept.attributes b hb
      · cases List.mem_singleton.mp hb
        exact ⟨name, hname⟩
    · intro b hb
      rcases List.mem_append.mp hb with hb | hb
      · exact hv.attributes b hb
      · cases List.mem_singleton.mp hb
        exact ⟨name, hname, hne⟩

/-! ### What a draft is of -/

/-- Flags, name, descriptor and owner of a method, which its attributes do not touch. -/
def head (d : MethodDraft) : AccessFlags .method × String × MethodDescriptor × String :=
  (d.flags, d.name, d.descriptor, d.owner)

theorem head_absorbCode (h : absorbCode pool code length d a = .ok e) : e.head = d.head := by
  rcases absorbCode_eq_ok h with ⟨p, lines, -, -, rfl⟩ | ⟨p, scopes, -, -, rfl⟩ |
    ⟨p, scopes, -, -, rfl⟩ | ⟨-, rfl⟩ <;> rfl

theorem head_wrapCode (h : d.wrapCode pool body = .ok e) : e.head = d.head := by
  obtain ⟨code, -, h⟩ := Except.bind_eq_ok.mp h
  obtain ⟨handlers, -, h⟩ := Except.bind_eq_ok.mp h
  refine Except.foldlM_invariant (P := fun e => e.head = d.head) rfl ?_ h
  exact fun _ hf _ _ _ hg => (head_absorbCode hg).trans hf

theorem head_absorb (h : absorb pool d a = .ok e) : e.head = d.head := by
  rcases absorb_eq_ok h with ⟨body, -, hw⟩ | ⟨p, types, -, -, rfl⟩ | ⟨-, rfl⟩ | ⟨-, rfl⟩
  · exact head_wrapCode hw
  · rfl
  · rfl
  · rfl

theorem valid_make {flags : AccessFlags .method} {name descriptor : String}
    (h : make flags name descriptor owner = .ok d) :
    Valid pool d ∧ d.head = (flags, name, d.descriptor, owner) ∧
      d.descriptor.describe = descriptor := by
  obtain ⟨parsed, hp, rfl⟩ := Except.map_eq_ok.mp h
  have hd := MethodDescriptor.describe_parse hp
  refine ⟨⟨⟨linked_empty, by simp, by simp, by simp⟩, ⟨by simp, by simp, by simp⟩,
    ⟨?_, by simp, by simp, by simp, by simp⟩,
    ⟨nofun, by simp, by simp, by simp, by simp, by simp, by simp⟩, by simp, ?_⟩, rfl, hd⟩
  · intro item hi
    cases hi
  · rw [← hd] at hp
    exact hp

/-- A stored method becomes a draft when its attributes are taken in one by one. -/
theorem ofMethod_eq_ok (h : ofMethod pool owner m = .ok d) :
    ∃ name descriptor base e annotations parameterAnnotations,
      pool.text m.name = .ok name ∧ pool.text m.descriptor = .ok descriptor ∧
      make m.flags name descriptor owner = .ok base ∧
      m.attributes.foldlM (absorb pool) base = .ok e ∧
      pool.annotations m.attributes = .ok annotations ∧
      pool.parameterAnnotations m.attributes = .ok parameterAnnotations ∧
      d = { e with annotations, parameterAnnotations } := by
  obtain ⟨name, hn, h⟩ := Except.bind_eq_ok.mp h
  obtain ⟨descriptor, hd, h⟩ := Except.bind_eq_ok.mp h
  split at h
  · cases h
  · rename_i base hb
    obtain ⟨e, he, h⟩ := Except.bind_eq_ok.mp h
    obtain ⟨annotations, ha, h⟩ := Except.bind_eq_ok.mp h
    obtain ⟨parameters, hq, rfl⟩ := Except.map_eq_ok.mp h
    exact ⟨name, descriptor, base, e, annotations, parameters, hn, hd, hb, he, ha, hq, rfl⟩

/-- A draft of a stored method is in order, and is a draft of that method. -/
theorem valid_ofMethod (h : ofMethod pool owner m = .ok d) :
    Valid pool d ∧ d.flags = m.flags ∧ d.owner = owner ∧ pool.text m.name = .ok d.name ∧
      pool.text m.descriptor = .ok d.descriptor.describe := by
  obtain ⟨name, descriptor, base, e, annotations, parameters, hn, hd, hb, he, ha, hq, rfl⟩ :=
    ofMethod_eq_ok h
  obtain ⟨hvalid, hhead, hdesc⟩ : Valid pool base ∧ _ := valid_make hb
  obtain ⟨hv, hh⟩ := Except.foldlM_invariant
    (P := fun e => Valid pool e ∧ e.head = base.head) ⟨hvalid, rfl⟩
    (fun f hf _ _ g hg => ⟨valid_absorb hf.1 hg, (head_absorb hg).trans hf.2⟩) he
  have hh := hh.trans hhead
  simp only [head, Prod.mk.injEq] at hh
  obtain ⟨hflags, hname, hdescriptor, howner⟩ := hh
  refine ⟨⟨{ hv.kept with }, { hv.tables with },
    { hv.fits with
      annotations := check_of_annotations ha
      parameterAnnotations := check_of_parameterAnnotations hq },
    { hv.names with
      annotations := held_of_annotations ha
      parameterAnnotations := held_of_parameterAnnotations hq },
    hv.attributes, hv.descriptor⟩, hflags, howner, ?_, ?_⟩
  · rw [hn, ← hname]
  · rw [hd, ← hdesc, ← hdescriptor]

end MethodDraft

end Classfile
