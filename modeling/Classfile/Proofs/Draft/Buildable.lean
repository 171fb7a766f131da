import Classfile.Proofs.Annotation.Places
import Classfile.Proofs.Draft.Steady

/-!
When a method can be built. Its code has to be writable and its tables may only refer to its
instructions; apart from that everything that is counted needs room for its count, and the names of
the attributes need room in the pool.
-/
namespace Classfile

open InstructionSeq ConstantPool

variable {pool pool' : ConstantPool} {d : MethodDraft} {s : InstructionSeq} {code : List UInt8}

/-- Code can be written whatever it holds, up to the counts. -/
theorem CodeBody.exists_write {body : CodeBody} (hh : body.handlers.length ≤ 65535)
    (ha : body.attributes.length ≤ 65535) : ∃ info, Payload.write body = .ok info := by
  obtain ⟨handlers, hh⟩ := Writer.exists_counted hh fun h _ => ⟨_, rfl⟩
  obtain ⟨attributes, ha⟩ := Writer.exists_counted ha fun a _ => ⟨_, rfl⟩
  exact ⟨_, Except.bind_eq_ok.mpr ⟨handlers, hh, Except.map_eq_ok.mpr ⟨attributes, ha, rfl⟩⟩⟩

namespace MethodDraft

/-- Everything that is counted has room for its count. -/
structure CountsFit (d : MethodDraft) : Prop where
  handlers : d.handlers.length ≤ 65535
  lines : d.lines.toList.length ≤ 65535
  scopes : d.scopes.length ≤ 65535
  typeScopes : d.typeScopes.length ≤ 65535
  /-- There can be an attribute for each of three tables in the code. -/
  codeAttributes : d.codeAttributes.length + 3 ≤ 65535
  exceptions : d.exceptions.length ≤ 65535
  annotations : d.annotations.length ≤ 65535 ∧ ∀ u ∈ d.annotations, u.body.Bounded
  parameters : d.parameterAnnotations.length ≤ 255
  parameterAnnotations : ∀ uses ∈ d.parameterAnnotations,
    uses.length ≤ 65535 ∧ ∀ u ∈ uses, u.body.Bounded

/-! ### The entries of the tables -/

theorem exists_storedHandler {range : GuardedRange} (hs : s.Linked)
    (hr : s.contains range.first ∧ s.contains range.last ∧ s.contains range.handler) :
    ∃ stored, storedHandler s.layout range = .ok stored := by
  obtain ⟨hf, hl, hh⟩ := hr
  obtain ⟨first, hf⟩ := exists_startOffset hs hf
  obtain ⟨last, hl⟩ := exists_stopOffset hs hl
  obtain ⟨handler, hh⟩ := exists_startOffset hs hh
  rw [storedHandler, hf, hl, hh]
  exact ⟨_, rfl⟩

theorem exists_storedLine {line : Handle × UInt16} (hs : s.Linked) (hh : s.contains line.1) :
    ∃ stored, storedLine s.layout line = .ok stored := by
  obtain ⟨start, hh⟩ := exists_startOffset hs hh
  rw [storedLine, hh]
  exact ⟨_, rfl⟩

theorem exists_storedScope {scope : VariableScope} (hs : s.Linked)
    (hr : s.contains scope.first ∧ s.contains scope.last) :
    ∃ stored, storedScope s.layout scope = .ok stored := by
  obtain ⟨first, hf⟩ := exists_startOffset hs hr.1
  obtain ⟨last, hl⟩ := exists_stopOffset hs hr.2
  rw [storedScope, hf, hl]
  exact ⟨_, rfl⟩

theorem addTable_of_room {α β γ : Type} [Payload γ] (make : List β → γ) {f : α → Except Fault β}
    {xs : List α} (hf : ∀ x ∈ xs, ∃ y, f x = .ok y)
    (hw : ∀ ys, ys.length = xs.length → ∃ info, Payload.write (make ys) = .ok info)
    (hx : pool.extent < capacity) : ∃ attributes pool',
      addTable make (xs.mapM f) pool = .ok attributes pool' ∧
        attributes.length ≤ 1 ∧ pool'.extent ≤ pool.extent + 1 := by
  obtain ⟨ys, hys⟩ := Except.exists_mapM hf
  obtain ⟨info, hw⟩ := hw ys (Except.mapM_length hys)
  rw [hys]
  cases ys with
  | nil => exact ⟨[], pool, rfl, Nat.zero_le _, Nat.le_succ _⟩
  | cons y ys =>
    obtain ⟨a, pool', ha, hx'⟩ := PoolM.addAttribute_of_room hx hw
    refine ⟨[a], pool', ?_, Nat.le_refl _, hx'⟩
    exact EStateM.bind_eq_ok.mpr ⟨y :: ys, pool, rfl, EStateM.map_eq_ok.mpr ⟨a, ha, rfl⟩⟩

/-! ### The code -/

/-- There is a table of each kind if there is room for the three names. -/
theorem exists_addTables (hs : d.instructions.Linked) (ht : d.TablesLive) (hc : d.CountsFit)
    (hx : pool.extent + 3 ≤ capacity) : ∃ lines pool₁ scopes pool₂ typeScopes pool₃,
      addTable LineNumberTable.mk (d.lines.toList.mapM (storedLine d.instructions.layout)) pool =
        .ok lines pool₁ ∧
      addTable LocalVariableTable.mk (d.scopes.mapM (storedScope d.instructions.layout)) pool₁ =
        .ok scopes pool₂ ∧
      addTable LocalVariableTypeTable.mk (d.typeScopes.mapM (storedScope d.instructions.layout))
        pool₂ = .ok typeScopes pool₃ ∧
      (lines ++ scopes ++ typeScopes).length ≤ 3 ∧ pool₃.extent ≤ pool.extent + 3 := by
  have hline := fun line hl => exists_storedLine hs (ht.lines line hl)
  have hscope := fun scope hm => exists_storedScope hs (ht.scopes scope hm)
  have h₀ : pool.extent < capacity := by omega
  obtain ⟨xs, pool₁, hxs, hlx, hx₁⟩ := addTable_of_room LineNumberTable.mk hline
    (fun ys hy => Writer.exists_counted (hy.trans_le hc.lines) fun l _ => ⟨_, rfl⟩) h₀
  have h₁ : pool₁.extent < capacity := by omega
  obtain ⟨ys, pool₂, hys, hly, hx₂⟩ := addTable_of_room LocalVariableTable.mk
    (fun scope hm => hscope scope (List.mem_append_left _ hm))
    (fun ys hy => Writer.exists_counted (hy.trans_le hc.scopes) fun r _ => ⟨_, rfl⟩) h₁
  have h₂ : pool₂.extent < capacity := by omega
  obtain ⟨zs, pool₃, hzs, hlz, hx₃⟩ := addTable_of_room LocalVariableTypeTable.mk
    (fun scope hm => hscope scope (List.mem_append_right _ hm))
    (fun ys hy => Writer.exists_counted (hy.trans_le hc.typeScopes) fun r _ => ⟨_, rfl⟩) h₂
  refine ⟨xs, pool₁, ys, pool₂, zs, pool₃, hxs, hys, hzs, ?_, by omega⟩
  simp only [List.length_append]
  omega

/-- What the code keeps has its name in the pool, whatever was added since. -/
theorem named_of_grows (hk : Kept pool d) (hg : pool.Grows pool') :
    d.codeAttributes.forM (fun a => discard (pool'.attributeName a)) = .ok () := by
  refine Except.forM_eq_ok.mpr fun a ha => ?_
  obtain ⟨name, hn, -⟩ := (hk.codeAttributes a ha).2.grows hg
  rw [hn]
  rfl

theorem exists_buildCode (hp : pool.Faithful) (hk : Kept pool d)
    (he : d.instructions.encode = .ok code) (ht : d.TablesLive) (hc : d.CountsFit)
    (hx : pool.extent + 3 ≤ capacity) : ∃ body pool' info, d.buildCode pool = .ok body pool' ∧
      pool'.extent ≤ pool.extent + 3 ∧ Payload.write body = .ok info := by
  obtain ⟨handlers, hh⟩ := Except.exists_mapM fun range hr =>
    exists_storedHandler hk.linked (ht.handlers range hr)
  obtain ⟨xs, pool₁, ys, pool₂, zs, pool₃, hxs, hys, hzs, hl, hx₃⟩ :=
    exists_addTables hk.linked ht hc hx
  obtain ⟨hp₁, hg₁, -⟩ := addTable_eq_ok hp hxs
  obtain ⟨hp₂, hg₂, -⟩ := addTable_eq_ok hp₁ hys
  obtain ⟨-, hg₃, -⟩ := addTable_eq_ok hp₂ hzs
  have hnames := named_of_grows hk ((hg₁.trans hg₂).trans hg₃)
  have hattributes : (xs ++ ys ++ zs ++ d.codeAttributes).length ≤ 65535 := by
    have hroom := hc.codeAttributes
    rw [List.length_append]
    omega
  obtain ⟨info, hw⟩ := @CodeBody.exists_write
    ⟨d.maxStack, d.maxLocals, code, handlers, xs ++ ys ++ zs ++ d.codeAttributes⟩
    ((Except.mapM_length hh).trans_le hc.handlers) hattributes
  refine ⟨_, pool₃, info, ?_, hx₃, hw⟩
  refine EStateM.bind_eq_ok.mpr ⟨code, pool, PoolM.ask_eq_ok.mpr ⟨he, rfl⟩, ?_⟩
  refine EStateM.bind_eq_ok.mpr ⟨handlers, pool, PoolM.ask_eq_ok.mpr ⟨hh, rfl⟩, ?_⟩
  refine EStateM.bind_eq_ok.mpr ⟨xs, pool₁, hxs, EStateM.bind_eq_ok.mpr ⟨ys, pool₂, hys, ?_⟩⟩
  refine EStateM.bind_eq_ok.mpr ⟨zs, pool₃, hzs, ?_⟩
  exact EStateM.bind_eq_ok.mpr ⟨(), pool₃, PoolM.ask_eq_ok.mpr ⟨hnames, rfl⟩, rfl⟩

theorem exists_addCode (hp : pool.Faithful) (hk : Kept pool d)
    (he : d.instructions.encode = .ok code) (ht : d.TablesLive) (hc : d.CountsFit)
    (hx : pool.extent + 4 ≤ capacity) : ∃ attributes pool',
      d.addCode pool = .ok attributes pool' ∧ pool'.extent ≤ pool.extent + 4 := by
  unfold addCode
  split
  · exact ⟨[], pool, rfl, Nat.le_add_right _ _⟩
  · have hroom : pool.extent + 3 ≤ capacity := by omega
    obtain ⟨body, mid, info, hb, hm, hw⟩ := exists_buildCode hp hk he ht hc hroom
    have hroom : mid.extent < capacity := by omega
    obtain ⟨a, pool', ha, hx'⟩ := PoolM.addAttribute_of_room hroom hw
    refine ⟨[a], pool', ?_, by omega⟩
    exact EStateM.bind_eq_ok.mpr ⟨body, mid, hb, EStateM.map_eq_ok.mpr ⟨a, ha, rfl⟩⟩

/-! ### The method -/

/-- A method can be built if its code can be written, its tables refer to its instructions and its
counts have room, and if there is room for all the texts that it may need: its name, its descriptor
and the names of nine attributes. -/
theorem exists_build (hp : pool.Faithful) (hk : Kept pool d)
    (he : d.instructions.encode = .ok code) (ht : d.TablesLive) (hc : d.CountsFit)
    (hx : pool.extent + 11 ≤ capacity) : ∃ r pool', d.build pool = .ok r pool' := by
  have h₀ : pool.extent < capacity := by omega
  obtain ⟨name, pool₁, hn, hx₁⟩ := PoolM.addText_of_room d.name h₀
  have h₁ : pool₁.extent < capacity := by omega
  obtain ⟨descriptor, pool₂, hd, hx₂⟩ := PoolM.addText_of_room d.descriptor.describe h₁
  obtain ⟨hp₁, hg₁, -⟩ := PoolM.faithful_addText hp hn
  obtain ⟨hp₂, hg₂, -⟩ := PoolM.faithful_addText hp₁ hd
  have h₂ : pool₂.extent + 4 ≤ capacity := by omega
  obtain ⟨instructions, pool₃, hi, hx₃⟩ :=
    exists_addCode hp₂ (hk.grows (hg₁.trans hg₂)) he ht hc h₂
  obtain ⟨_, hw⟩ : ∃ info, Payload.write (Exceptions.mk d.exceptions) = .ok info :=
    Writer.exists_counted hc.exceptions fun i _ => ⟨_, rfl⟩
  have h₃ : pool₃.extent < capacity := by omega
  obtain ⟨exceptions, pool₄, hex, hx₄⟩ := PoolM.addUnless_of_room d.exceptions.isEmpty h₃ hw
  have h₄ : pool₄.extent + 2 ≤ capacity := by omega
  obtain ⟨annotations, pool₅, ha, hx₅⟩ := PoolM.addAnnotations_of_room hc.annotations.1
    (fun u hu => (hc.annotations.2 u hu).writable) h₄
  have h₅ : pool₅.extent + 2 ≤ capacity := by omega
  obtain ⟨parameterAnnotations, pool₆, hq⟩ :=
    PoolM.exists_addParameterAnnotations hc.parameters hc.parameterAnnotations h₅
  rw [build_eq]
  refine ⟨⟨d.flags, name, descriptor,
    instructions ++ exceptions ++ d.attributes ++ annotations ++ parameterAnnotations⟩, pool₆, ?_⟩
  refine EStateM.bind_eq_ok.mpr ⟨name, pool₁, hn, ?_⟩
  refine EStateM.bind_eq_ok.mpr ⟨descriptor, pool₂, hd, ?_⟩
  refine EStateM.bind_eq_ok.mpr ⟨instructions, pool₃, hi, ?_⟩
  refine EStateM.bind_eq_ok.mpr ⟨exceptions, pool₄, hex, ?_⟩
  refine EStateM.bind_eq_ok.mpr ⟨annotations, pool₅, ha, ?_⟩
  exact EStateM.map_eq_ok.mpr ⟨parameterAnnotations, hq, rfl⟩

end MethodDraft

end Classfile
