import Classfile.Proofs.Draft.Tables

/-!
The code of a method, with its tables, is stored as one attribute. Taking this attribute in gives
the instructions that are read back, and tables that refer to them.
-/
namespace Classfile

open InstructionSeq ConstantPool

variable {pool pool' : ConstantPool} {d e : MethodDraft} {body : CodeBody}
  {attributes : List Attribute}

namespace MethodDraft

/-- The names of the attributes of code that become tables of the draft. -/
def tableNames : List String :=
  [Payload.name LineNumberTable, Payload.name LocalVariableTable,
    Payload.name LocalVariableTypeTable]

/-- The tables refer to instructions of the draft, and no range ends before it begins. -/
structure TablesFit (d : MethodDraft) : Prop where
  handlers : ∀ range ∈ d.handlers,
    d.instructions.Spans range.first range.last ∧ d.instructions.contains range.handler
  lines : ∀ line ∈ d.lines.toList, d.instructions.contains line.1
  scopes : ∀ scope ∈ d.scopes ++ d.typeScopes, d.instructions.Spans scope.first scope.last

/-- Every index is that of a constant of the right kind. -/
structure FitsPool (pool : ConstantPool) (d : MethodDraft) : Prop where
  operands : ∀ item ∈ d.instructions.toList, item.2.WellTyped pool
  catchTypes : ∀ range ∈ d.handlers, ∀ i ∈ range.catchType, pool.checked .typeName i = .ok i
  exceptions : ∀ i ∈ d.exceptions, pool.checked .typeName i = .ok i
  annotations : ∀ u ∈ d.annotations, u.check pool = .ok ()
  parameterAnnotations : ∀ u ∈ d.parameterAnnotations.flatten, u.check pool = .ok ()

/-- What holds for every draft, however it was edited: the texts of its scopes are in the pool, and
the attributes that it keeps have names, those of its code none that stands for a table. -/
structure Kept (pool : ConstantPool) (d : MethodDraft) : Prop where
  linked : d.instructions.Linked
  scopes : ∀ scope ∈ d.scopes ++ d.typeScopes, (∃ name, pool.text scope.name = .ok name) ∧
    ∃ descriptor, pool.text scope.descriptor = .ok descriptor
  codeAttributes : ∀ a ∈ d.codeAttributes, a.Fits ∧ a.Apart pool tableNames
  attributes : ∀ a ∈ d.attributes, ∃ name, pool.attributeName a = .ok name

theorem Kept.grows (h : Kept pool d) (hg : pool.Grows pool') : Kept pool' d where
  linked := h.linked
  scopes := by
    intro scope hm
    obtain ⟨⟨name, hn⟩, descriptor, hd⟩ := h.scopes scope hm
    exact ⟨⟨name, hg.text hn⟩, descriptor, hg.text hd⟩
  codeAttributes a ha := ⟨(h.codeAttributes a ha).1, (h.codeAttributes a ha).2.grows hg⟩
  attributes := by
    intro a ha
    obtain ⟨name, hn⟩ := h.attributes a ha
    exact ⟨name, hg.text hn⟩

/-- The draft `e` with the code of `d`, as it is when it was stored and read back. -/
def withCodeOf (e d : MethodDraft) : MethodDraft :=
  { e with
    instructions := d.instructions.readBack.instructions
    maxStack := d.maxStack
    maxLocals := d.maxLocals
    handlers := d.handlers.map (·.relocate d.instructions.renumber)
    lines := (d.lines.toList.map fun line => (d.instructions.renumber line.1, line.2)).toArray
    scopes := d.scopes.map (·.relocate d.instructions.renumber)
    typeScopes := d.typeScopes.map (·.relocate d.instructions.renumber)
    codeAttributes := d.codeAttributes }

/-- The body holds the code of the draft, and its tables in attributes. -/
structure StoresCode (pool : ConstantPool) (d : MethodDraft) (body : CodeBody) : Prop where
  maxStack : body.maxStack = d.maxStack
  maxLocals : body.maxLocals = d.maxLocals
  code : d.instructions.encode = .ok body.code
  handlers : d.handlers.mapM (storedHandler d.instructions.layout) = .ok body.handlers
  attributes : ∃ lines scopes typeScopes xs ys zs,
    d.lines.toList.mapM (storedLine d.instructions.layout) = .ok lines ∧
    d.scopes.mapM (storedScope d.instructions.layout) = .ok scopes ∧
    d.typeScopes.mapM (storedScope d.instructions.layout) = .ok typeScopes ∧
    Attribute.HoldsUnless pool lines.isEmpty (LineNumberTable.mk lines) xs ∧
    Attribute.HoldsUnless pool scopes.isEmpty (LocalVariableTable.mk scopes) ys ∧
    Attribute.HoldsUnless pool typeScopes.isEmpty (LocalVariableTypeTable.mk typeScopes) zs ∧
    body.attributes = xs ++ ys ++ zs ++ d.codeAttributes

/-! ### Storing -/

theorem addTable_eq_ok {α β : Type} [Payload β] {make : List α → β}
    {entries : Except Fault (List α)} (hp : pool.Faithful)
    (h : addTable make entries pool = .ok attributes pool') :
    pool'.Faithful ∧ pool.Grows pool' ∧ ∃ es, entries = .ok es ∧
      Attribute.HoldsUnless pool' es.isEmpty (make es) attributes := by
  obtain ⟨es, mid, ha, h⟩ := EStateM.bind_eq_ok.mp h
  obtain ⟨he, rfl⟩ := PoolM.ask_eq_ok.mp ha
  cases es with
  | nil =>
    obtain ⟨rfl, rfl⟩ := EStateM.pure_eq_ok.mp h
    exact ⟨hp, Grows.refl _, [], he, rfl⟩
  | cons x es =>
    obtain ⟨a, ha, rfl⟩ := EStateM.map_eq_ok.mp h
    obtain ⟨hp', hg, ha⟩ := PoolM.addAttribute_eq_ok hp ha
    exact ⟨hp', hg, x :: es, he, a, rfl, ha⟩

theorem storesCode_of_buildCode (hp : pool.Faithful) (h : d.buildCode pool = .ok body pool') :
    pool'.Faithful ∧ pool.Grows pool' ∧ StoresCode pool' d body := by
  obtain ⟨code, _, ha, h⟩ := EStateM.bind_eq_ok.mp h
  obtain ⟨hc, rfl⟩ := PoolM.ask_eq_ok.mp ha
  obtain ⟨handlers, _, ha, h⟩ := EStateM.bind_eq_ok.mp h
  obtain ⟨hh, rfl⟩ := PoolM.ask_eq_ok.mp ha
  obtain ⟨xs, pool₁, hx, h⟩ := EStateM.bind_eq_ok.mp h
  obtain ⟨ys, pool₂, hy, h⟩ := EStateM.bind_eq_ok.mp h
  obtain ⟨zs, pool₃, hz, h⟩ := EStateM.bind_eq_ok.mp h
  obtain ⟨_, _, ha, h⟩ := EStateM.bind_eq_ok.mp h
  obtain ⟨-, rfl⟩ := PoolM.ask_eq_ok.mp ha
  obtain ⟨rfl, rfl⟩ := EStateM.pure_eq_ok.mp h
  obtain ⟨hp₁, hg₁, lines, hl, hx⟩ := addTable_eq_ok hp hx
  obtain ⟨hp₂, hg₂, scopes, hs, hy⟩ := addTable_eq_ok hp₁ hy
  obtain ⟨hp₃, hg₃, typeScopes, ht, hz⟩ := addTable_eq_ok hp₂ hz
  refine ⟨hp₃, hg₁.trans (hg₂.trans hg₃), rfl, rfl, hc, hh, ?_⟩
  exact ⟨lines, scopes, typeScopes, xs, ys, zs, hl, hs, ht, hx.grows (hg₂.trans hg₃),
    hy.grows hg₃, hz, rfl⟩

theorem catchType_of_storedHandler {l : Layout} {range : GuardedRange} {stored : ExceptionHandler}
    (h : storedHandler l range = .ok stored) : stored.catchType = range.catchType := by
  obtain ⟨_, -, h⟩ := Except.bind_eq_ok.mp h
  obtain ⟨_, -, h⟩ := Except.bind_eq_ok.mp h
  obtain ⟨_, -, rfl⟩ := Except.map_eq_ok.mp h
  rfl

/-- All that is stored has lengths with room in their fields, and no handler catches the class with
the index zero. -/
theorem fits_of_storesCode (hp : pool.Coherent) (hs : StoresCode pool d body) (hk : Kept pool d)
    (hf : FitsPool pool d) : body.Fits := by
  obtain ⟨-, -, hcode, hh, lines, scopes, typeScopes, xs, ys, zs, -, -, -, hx, hy, hz, hattr⟩ := hs
  obtain ⟨wide, hw⟩ := exists_written hk.linked hcode
  refine ⟨?_, ?_, ?_⟩
  · have hr := hw.room
    rw [maxCodeLength] at hr
    omega
  · intro stored hm hz
    obtain ⟨range, hr, hst⟩ := Except.exists_of_mem_mapM hh hm
    rw [catchType_of_storedHandler hst] at hz
    obtain ⟨-, c, hc, -⟩ := checked_eq_ok.mp (hf.catchTypes range hr _ hz)
    rw [hp.get?_zero] at hc
    cases hc
  · intro a ha
    rw [hattr, List.mem_append, List.mem_append, List.mem_append] at ha
    rcases ha with ((ha | ha) | ha) | ha
    · exact LineNumberTable.length_write (hx.info ha)
    · exact VariableRange.length_counted (hy.info ha)
    · exact VariableRange.length_counted (hz.info ha)
    · exact (hk.codeAttributes a ha).1

/-! ### Taking in -/

section

variable {code : DecodedCode} {length : Nat} {a : Attribute}

theorem absorbCode_lines {p : LineNumberTable} {lines : List (Handle × UInt16)}
    (ha : a.Holds pool p) (hl : p.lines.mapM (wrapLine e code) = .ok lines) :
    absorbCode pool code length e a = .ok { e with lines := e.lines ++ lines } := by
  rw [absorbCode, payload?_of_yields ha.name (LineNumberTable.yields_read ha.info)]
  dsimp only [Except.ok_bind]
  rw [hl]
  rfl

theorem absorbCode_scopes {p : LocalVariableTable} {scopes : List VariableScope}
    (ha : a.Holds pool p) (hs : wrapScopes pool e code length p.ranges = .ok scopes) :
    absorbCode pool code length e a = .ok { e with scopes := e.scopes ++ scopes } := by
  have hl : pool.payload? LineNumberTable a = .ok none := payload?_of_ne ha.name (by decide)
  rw [absorbCode, hl, Except.ok_bind]
  dsimp only
  rw [payload?_of_yields ha.name (LocalVariableTable.yields_read ha.info), Except.ok_bind]
  dsimp only
  rw [hs]
  rfl

theorem absorbCode_typeScopes {p : LocalVariableTypeTable} {scopes : List VariableScope}
    (ha : a.Holds pool p) (hs : wrapScopes pool e code length p.ranges = .ok scopes) :
    absorbCode pool code length e a = .ok { e with typeScopes := e.typeScopes ++ scopes } := by
  have hl : pool.payload? LineNumberTable a = .ok none := payload?_of_ne ha.name (by decide)
  have hv : pool.payload? LocalVariableTable a = .ok none := payload?_of_ne ha.name (by decide)
  rw [absorbCode, hl, Except.ok_bind]
  dsimp only
  rw [hv, Except.ok_bind]
  dsimp only
  rw [payload?_of_yields ha.name (LocalVariableTypeTable.yields_read ha.info), Except.ok_bind]
  dsimp only
  rw [hs]
  rfl

theorem absorbCode_other (ha : a.Apart pool tableNames) : absorbCode pool code length e a =
    .ok { e with codeAttributes := e.codeAttributes ++ [a] } := by
  have hl : pool.payload? LineNumberTable a = .ok none := ha.payload? (by simp [tableNames])
  have hv : pool.payload? LocalVariableTable a = .ok none := ha.payload? (by simp [tableNames])
  have ht : pool.payload? LocalVariableTypeTable a = .ok none :=
    ha.payload? (by simp [tableNames])
  rw [absorbCode, hl, Except.ok_bind]
  dsimp only
  rw [hv, Except.ok_bind]
  dsimp only
  rw [ht]
  rfl

theorem foldlM_absorbCode_other (ha : ∀ a ∈ attributes, a.Apart pool tableNames) :
    attributes.foldlM (absorbCode pool code length) e =
      .ok { e with codeAttributes := e.codeAttributes ++ attributes } :=
  Except.foldlM_collect (g := fun codeAttributes => { e with codeAttributes }) fun a hm _ =>
    absorbCode_other (ha a hm)

end

variable {wide : Std.HashSet Handle} {bytes : List UInt8}

theorem wrapScopes_stored (hw : d.instructions.Written wide bytes) {scopes : List VariableScope}
    (hs : ∀ scope ∈ scopes, d.instructions.Spans scope.first scope.last)
    (ht : ∀ scope ∈ scopes, (∃ name, pool.text scope.name = .ok name) ∧
      ∃ descriptor, pool.text scope.descriptor = .ok descriptor)
    {ranges : List VariableRange}
    (h : scopes.mapM (storedScope d.instructions.layout) = .ok ranges) :
    wrapScopes pool e d.instructions.readBack bytes.length ranges =
      .ok (scopes.map (·.relocate d.instructions.renumber)) := by
  have hm : ranges.mapM (wrapScope pool e d.instructions.readBack bytes.length) =
      .ok (scopes.map fun scope => some (scope.relocate d.instructions.renumber)) := by
    refine Except.mapM_mapM h fun scope hi r hr => ?_
    obtain ⟨⟨name, hn⟩, descriptor, hd⟩ := ht scope hi
    exact hw.wrapScope_stored (hs scope hi) hn hd hr
  rw [wrapScopes, hm, Except.ok_bind, List.filterMap_map]
  simp

/-- A table without entries was stored for no entries. -/
theorem eq_nil_of_isEmpty {α β : Type} {f : α → Except Fault β} {xs : List α} {ys : List β}
    (h : xs.mapM f = .ok ys) (hy : ys.isEmpty = true) : xs = [] := by
  rw [List.isEmpty_iff] at hy
  subst hy
  exact List.eq_nil_of_length_eq_zero (Except.mapM_length h).symm

theorem foldlM_absorbCode_lines (hw : d.instructions.Written wide bytes)
    (hc : ∀ line ∈ d.lines.toList, d.instructions.contains line.1) {lines : List LineNumber}
    (h : d.lines.toList.mapM (storedLine d.instructions.layout) = .ok lines)
    (ha : Attribute.HoldsUnless pool lines.isEmpty (LineNumberTable.mk lines) attributes) :
    attributes.foldlM (absorbCode pool d.instructions.readBack bytes.length) e =
      .ok { e with lines := e.lines ++
        d.lines.toList.map fun line => (d.instructions.renumber line.1, line.2) } := by
  refine ha.foldlM_eq (fun a ha => absorbCode_lines ha ?_) fun hn => ?_
  · exact Except.mapM_mapM h fun line hl stored hst => hw.wrapLine_stored (hc line hl) hst
  · rw [eq_nil_of_isEmpty h hn]
    simp

theorem foldlM_absorbCode_scopes (hw : d.instructions.Written wide bytes)
    {scopes : List VariableScope}
    (hs : ∀ scope ∈ scopes, d.instructions.Spans scope.first scope.last)
    (ht : ∀ scope ∈ scopes, (∃ name, pool.text scope.name = .ok name) ∧
      ∃ descriptor, pool.text scope.descriptor = .ok descriptor) {ranges : List VariableRange}
    (h : scopes.mapM (storedScope d.instructions.layout) = .ok ranges)
    (ha : Attribute.HoldsUnless pool ranges.isEmpty (LocalVariableTable.mk ranges) attributes) :
    attributes.foldlM (absorbCode pool d.instructions.readBack bytes.length) e =
      .ok { e with scopes := e.scopes ++ scopes.map (·.relocate d.instructions.renumber) } := by
  refine ha.foldlM_eq (fun a ha => absorbCode_scopes ha (wrapScopes_stored hw hs ht h))
    fun hn => ?_
  rw [eq_nil_of_isEmpty h hn]
  simp

theorem foldlM_absorbCode_typeScopes (hw : d.instructions.Written wide bytes)
    {scopes : List VariableScope}
    (hs : ∀ scope ∈ scopes, d.instructions.Spans scope.first scope.last)
    (ht : ∀ scope ∈ scopes, (∃ name, pool.text scope.name = .ok name) ∧
      ∃ descriptor, pool.text scope.descriptor = .ok descriptor) {ranges : List VariableRange}
    (h : scopes.mapM (storedScope d.instructions.layout) = .ok ranges)
    (ha : Attribute.HoldsUnless pool ranges.isEmpty (LocalVariableTypeTable.mk ranges)
      attributes) :
    attributes.foldlM (absorbCode pool d.instructions.readBack bytes.length) e =
      .ok { e with
        typeScopes := e.typeScopes ++ scopes.map (·.relocate d.instructions.renumber) } := by
  refine ha.foldlM_eq (fun a ha => absorbCode_typeScopes ha (wrapScopes_stored hw hs ht h))
    fun hn => ?_
  rw [eq_nil_of_isEmpty h hn]
  simp

theorem wrapCode_of_storesCode (hs : StoresCode pool d body) (hk : Kept pool d)
    (ht : TablesFit d) (hf : FitsPool pool d) :
    e.wrapCode pool body = .ok (e.withCodeOf d) := by
  obtain ⟨hstack, hlocals, hcode, hh, lines, scopes, typeScopes, xs, ys, zs, hl, hv, hvt, hx, hy,
    hz, hattr⟩ := hs
  obtain ⟨wide, hw⟩ := exists_written hk.linked hcode
  have hhandlers : body.handlers.mapM
      (wrapHandler pool e d.instructions.readBack body.code.length) =
        .ok (d.handlers.map (·.relocate d.instructions.renumber)) := by
    refine Except.mapM_mapM hh fun range hr stored hst => ?_
    obtain ⟨hspan, hhandler⟩ := ht.handlers range hr
    exact hw.wrapHandler_stored hspan hhandler (hf.catchTypes range hr) hst
  rw [wrapCode, decodeCode_bytes hk.linked hf.operands hcode, Except.ok_bind]
  dsimp only
  rw [hhandlers, Except.ok_bind, hattr, List.foldlM_append, List.foldlM_append,
    List.foldlM_append, foldlM_absorbCode_lines hw ht.lines hl hx, Except.ok_bind,
    foldlM_absorbCode_scopes hw (fun r hr => ht.scopes r (List.mem_append_left _ hr))
      (fun r hr => hk.scopes r (List.mem_append_left _ hr)) hv hy, Except.ok_bind,
    foldlM_absorbCode_typeScopes hw (fun r hr => ht.scopes r (List.mem_append_right _ hr))
      (fun r hr => hk.scopes r (List.mem_append_right _ hr)) hvt hz, Except.ok_bind,
    foldlM_absorbCode_other fun a ha => (hk.codeAttributes a ha).2]
  simp [withCodeOf, hstack, hlocals]

end MethodDraft

end Classfile
