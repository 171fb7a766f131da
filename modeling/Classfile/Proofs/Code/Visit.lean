import Classfile.Code.Visit
import Classfile.Proofs.Code.Opcode

/-!
What a visitor is told of an instruction, compared with what the instruction says of itself. The
hooks go from the general to the specific, and the family among them is the one that the operands
belong to. So a visitor that counts hooks counts the instructions that have targets, use a local
variable or use a constant.
-/
namespace Classfile

variable {τ ν : Type} {i : Instruction τ} {h g : Hook} {f : Family}

namespace Hook

/-- The place in the order of the telling. A family has one place and its parts have the next. -/
def stage : Hook → Nat
  | exceptionThrower => 1
  | stackConsumer => 2
  | stackProducer => 3
  | unconditionalBranch => 4
  | constantPoolInstruction => 5
  | loadInstruction | storeInstruction | ifInstruction | gotoInstruction | jsrInstruction | select
  | fieldInstruction | invokeInstruction => 7
  | opcode _ => 8
  | _ => 6

/-- The family that the hook tells a part of. -/
def whole? : Hook → Option Hook
  | loadInstruction | storeInstruction => some localVariableInstruction
  | ifInstruction | gotoInstruction | jsrInstruction | select => some branchInstruction
  | fieldInstruction | invokeInstruction => some fieldOrMethod
  | _ => none

theorem stage_of_whole (hg : h.whole? = some g) : h.stage = 7 := by
  cases h <;> first | rfl | cases hg

/-- What can be told before the family. -/
def general : List Hook :=
  [exceptionThrower, stackConsumer, stackProducer, unconditionalBranch, constantPoolInstruction]

theorem stage_of_general (hm : h ∈ general) : h.stage ≤ 5 := by
  revert h
  decide

theorem general_rises : general.Pairwise (·.stage < ·.stage) := by decide

end Hook

namespace Family

theorem stage_of_hooks (hm : h ∈ f.hooks) : 6 ≤ h.stage ∧ h.stage ≤ 7 := by
  revert h
  cases f <;> decide

theorem hooks_rise (f : Family) : f.hooks.Pairwise (·.stage < ·.stage) := by
  cases f <;> decide

/-- A part is told of right after the whole. -/
theorem hooks_of_whole (hm : h ∈ f.hooks) (hg : h.whole? = some g) : f.hooks = [g, h] := by
  cases f with
  | load | store | conditional | goto | subroutine | select | field | invoke =>
    rcases List.mem_cons.mp hm with rfl | hm
    · cases hg
    · cases List.mem_singleton.mp hm
      cases hg
      rfl
  | other | reserved => cases hm
  | _ =>
    cases List.mem_singleton.mp hm
    cases hg

end Family

namespace Instruction

/-! ### What the instruction says of itself -/

/-- Operations without operands have neither targets nor a local variable. -/
theorem hooks_of_simple (op : SimpleOp) : .branchInstruction ∉ op.info.family.hooks ∧
    .localVariableInstruction ∉ op.info.family.hooks := by
  cases op <;> decide

theorem branch_mem_iff : .branchInstruction ∈ i.opcode.family.hooks ↔ i.targets ≠ [] := by
  cases i with
  | simple op => exact iff_of_false (hooks_of_simple op).1 (· rfl)
  | branch | tableSwitch | lookupSwitch => exact iff_of_true List.mem_cons_self nofun
  | jump kind | wideJump kind => cases kind <;> exact iff_of_true List.mem_cons_self nofun
  | field access => cases access <;> exact iff_of_false nofun (· rfl)
  | invoke mode => cases mode <;> exact iff_of_false nofun (· rfl)
  | typeOp operation => cases operation <;> exact iff_of_false nofun (· rfl)
  | _ => exact iff_of_false nofun (· rfl)

theorem localVariable_mem_iff :
    .localVariableInstruction ∈ i.opcode.family.hooks ↔ i.localVariable?.isSome := by
  cases i with
  | simple op => exact iff_of_false (hooks_of_simple op).2 nofun
  | load | store | increment | ret => exact iff_of_true List.mem_cons_self rfl
  | jump kind | wideJump kind => cases kind <;> exact iff_of_false nofun nofun
  | field access => cases access <;> exact iff_of_false nofun nofun
  | invoke mode => cases mode <;> exact iff_of_false nofun nofun
  | typeOp operation => cases operation <;> exact iff_of_false nofun nofun
  | _ => exact iff_of_false nofun nofun

theorem constantIndex?_of_reserved (hr : i.opcode.family = .reserved) :
    i.constantIndex? = none := by
  cases i with
  | field access => cases access <;> cases hr
  | invoke mode => cases mode <;> cases hr
  | typeOp operation => cases operation <;> cases hr
  | constant | wideConstant | invokeInterface | invokeDynamic | multiNewArray => cases hr
  | _ => rfl

/-- The hooks are some of the general ones, those of the family, and the opcode. -/
theorem exists_general (i : Instruction τ) : ∃ before, before.Sublist Hook.general ∧
    i.hooks = before ++ i.opcode.family.hooks ++ [.opcode i.opcode] ∧
    (.constantPoolInstruction ∈ before ↔ i.constantIndex?.isSome) ∧
    (i.opcode.family = .reserved → before = []) := by
  have hone : ∀ (b : Bool) (h : Hook), (if b then [h] else []).Sublist [h] := by
    intro b h
    cases b with
    | true => exact .refl _
    | false => exact List.nil_sublist _
  by_cases hr : i.opcode.family = .reserved
  · refine ⟨[], List.nil_sublist _, ?_, ?_, fun _ => rfl⟩
    · simp [hooks, hr, Family.hooks]
    · simp [constantIndex?_of_reserved hr]
  · refine ⟨_, ?_, by rw [hooks, if_neg hr], ?_, fun h => absurd h hr⟩
    · exact ((((hone _ _).append (hone _ _)).append (hone _ _)).append (hone _ _)).append
        (hone _ _)
    · simp [List.mem_ite_nil_right]

theorem hooks_rise (i : Instruction τ) : i.hooks.Pairwise (·.stage < ·.stage) := by
  obtain ⟨before, hsub, heq, -, -⟩ := exists_general i
  rw [heq]
  refine List.pairwise_append.mpr ⟨List.pairwise_append.mpr
    ⟨Hook.general_rises.sublist hsub, Family.hooks_rise _, ?_⟩, List.pairwise_singleton _ _, ?_⟩
  · intro h hm g hg
    have hs := Hook.stage_of_general (hsub.subset hm)
    have hs' := Family.stage_of_hooks hg
    omega
  · intro h hm g hg
    obtain rfl := List.mem_singleton.mp hg
    change h.stage < 8
    rcases List.mem_append.mp hm with hm | hm
    · have hs := Hook.stage_of_general (hsub.subset hm)
      omega
    · have hs := Family.stage_of_hooks hm
      omega

theorem mem_hooks_of_family (hl : 6 ≤ h.stage) (hu : h.stage ≤ 7) :
    h ∈ i.hooks ↔ h ∈ i.opcode.family.hooks := by
  obtain ⟨before, hsub, heq, -, -⟩ := exists_general i
  rw [heq, List.mem_append, List.mem_append, List.mem_singleton]
  constructor
  · rintro ((hm | hm) | rfl)
    · have hs := Hook.stage_of_general (hsub.subset hm)
      omega
    · exact hm
    · change 8 ≤ 7 at hu
      omega
  · intro hm
    exact .inl (.inr hm)

theorem constantPool_mem_iff : .constantPoolInstruction ∈ i.hooks ↔ i.constantIndex?.isSome := by
  obtain ⟨before, -, heq, hconstant, -⟩ := exists_general i
  rw [heq, List.mem_append, List.mem_append, List.mem_singleton, ← hconstant]
  constructor
  · rintro ((hm | hm) | he)
    · exact hm
    · have hs : 6 ≤ 5 := (Family.stage_of_hooks hm).1
      omega
    · cases he
  · intro hm
    exact .inl (.inl hm)

/-! ### What a visitor sees -/

/-- What is told of an instruction, in the order of the telling. -/
structure Told (i : Instruction τ) (hooks : List Hook) : Prop where
  rises : hooks.Pairwise (·.stage < ·.stage)
  once : hooks.Nodup
  /-- The opcode is told last and only then. -/
  ends : ∃ before, hooks = before ++ [.opcode i.opcode] ∧ ∀ o, .opcode o ∉ before
  part : ∀ h g, h ∈ hooks → h.whole? = some g →
    ∃ before after, hooks = before ++ g :: h :: after
  branch : .branchInstruction ∈ hooks ↔ i.targets ≠ []
  localVariable : .localVariableInstruction ∈ hooks ↔ i.localVariable?.isSome
  constantPool : .constantPoolInstruction ∈ hooks ↔ i.constantIndex?.isSome
  reserved : i.opcode ∈ [.simple .breakpoint, .simple .impdep1, .simple .impdep2] →
    hooks = [.opcode i.opcode]

theorem told_hooks (i : Instruction τ) : i.Told i.hooks := by
  obtain ⟨before, hsub, heq, -, hreserved⟩ := exists_general i
  refine ⟨hooks_rise i, (hooks_rise i).imp ?_, ⟨_, heq, ?_⟩, ?_, ?_, ?_, constantPool_mem_iff, ?_⟩
  · rintro h _ hs rfl
    exact Nat.lt_irrefl _ hs
  · intro o hm
    rcases List.mem_append.mp hm with hm | hm
    · have hs : 8 ≤ 5 := Hook.stage_of_general (hsub.subset hm)
      omega
    · have hs : 8 ≤ 7 := (Family.stage_of_hooks hm).2
      omega
  · intro h g hm hg
    have hs := Hook.stage_of_whole hg
    have hf := (mem_hooks_of_family (by omega) (by omega)).mp hm
    refine ⟨before, [.opcode i.opcode], ?_⟩
    rw [heq, Family.hooks_of_whole hf hg, List.append_assoc]
    rfl
  · exact (mem_hooks_of_family (by decide) (by decide)).trans branch_mem_iff
  · exact (mem_hooks_of_family (by decide) (by decide)).trans localVariable_mem_iff
  · intro hm
    have hr : i.opcode.family = .reserved := by
      have hall : ∀ o ∈ [Opcode.simple .breakpoint, .simple .impdep1, .simple .impdep2],
          o.family = .reserved := by decide
      exact hall _ hm
    rw [heq, hreserved hr, hr]
    rfl

example : (store .double 4 : Instruction Nat).hooks =
    [.stackConsumer, .localVariableInstruction, .storeInstruction, .opcode (.store .double)] := rfl

/-- A visitor that remembers every hook, and of which instruction it was told. -/
def record (seen : List (Hook × Instruction τ)) (hook : Hook) (i : Instruction τ) :
    List (Hook × Instruction τ) :=
  seen ++ [(hook, i)]

theorem visit_record (seen : List (Hook × Instruction τ)) (i : Instruction τ) :
    i.visit record seen = seen ++ i.hooks.map (·, i) := by
  suffices hall : ∀ hooks : List Hook, hooks.foldl (fun v hook => record v hook i) seen =
      seen ++ hooks.map (·, i) from hall i.hooks
  intro hooks
  induction hooks generalizing seen with
  | nil => rw [List.map_nil, List.append_nil, List.foldl_nil]
  | cons hook hooks ih =>
    rw [List.foldl_cons, ih, record, List.map_cons, List.append_assoc, List.singleton_append]

/-- A visitor that counts how often it was told of each hook. -/
def tally (counts : Hook → Nat) (hook : Hook) (_ : Instruction τ) : Hook → Nat :=
  Function.update counts hook (counts hook + 1)

theorem visit_tally (counts : Hook → Nat) (i : Instruction τ) (h : Hook) :
    i.visit tally counts h = counts h + if h ∈ i.hooks then 1 else 0 := by
  suffices hall : ∀ hooks : List Hook,
      hooks.foldl (fun v hook => tally v hook i) counts h = counts h + hooks.count h by
    rw [← (told_hooks i).once.count]
    exact hall i.hooks
  intro hooks
  induction hooks generalizing counts with
  | nil => rfl
  | cons hook hooks ih =>
    rw [List.foldl_cons, ih, tally, Function.update_apply, List.count_cons]
    by_cases he : h = hook
    · subst he
      simp
      omega
    · simp [he, Ne.symm he]

theorem foldl_tally (counts : Hook → Nat) (is : List (Instruction τ)) (h : Hook) :
    is.foldl (visit tally) counts h = counts h + is.countP (h ∈ ·.hooks) := by
  induction is generalizing counts with
  | nil => rfl
  | cons i is ih =>
    rw [List.foldl_cons, ih, visit_tally, List.countP_cons]
    simp only [decide_eq_true_eq]
    omega

/-- What a visitor has counted that saw all of the instructions and began at zero. -/
def tallies (is : List (Instruction τ)) : Hook → Nat := is.foldl (visit tally) fun _ => 0

/-- A hook is counted as often as there are instructions that it is told of. -/
theorem tallies_eq {p : Instruction τ → Bool} (hp : ∀ i : Instruction τ, h ∈ i.hooks ↔ p i = true)
    (is : List (Instruction τ)) : tallies is h = is.countP p := by
  rw [tallies, foldl_tally, Nat.zero_add]
  refine List.countP_congr fun i _ => ?_
  rw [decide_eq_true_eq, hp]

/-- A visitor is told of every instruction from the general to the specific, and of a family just if
the operands say so. A visitor that counts therefore counts the instructions that have targets, use
a local variable, use a constant, or have an opcode. -/
theorem visits_tell (τ : Type) :
    (∀ i : Instruction τ, ∃ hooks, i.Told hooks ∧
      ∀ seen, i.visit record seen = seen ++ hooks.map (·, i)) ∧
    ∀ is : List (Instruction τ),
      tallies is .branchInstruction = is.countP (·.isBranch) ∧
      tallies is .localVariableInstruction = is.countP (·.localVariable?.isSome) ∧
      tallies is .constantPoolInstruction = is.countP (·.constantIndex?.isSome) ∧
      (∀ o, tallies is (.opcode o) = is.countP (·.opcode = o)) ∧
      ∀ h, tallies is h = is.countP (h ∈ ·.hooks) := by
  refine ⟨fun i => ⟨i.hooks, told_hooks i, fun seen => visit_record seen i⟩, fun is => ?_⟩
  refine ⟨tallies_eq (fun i => ?_) is, tallies_eq (fun i => (told_hooks i).localVariable) is,
    tallies_eq (fun i => (told_hooks i).constantPool) is, fun o => tallies_eq (fun i => ?_) is,
    fun h => tallies_eq (fun i => decide_eq_true_iff.symm) is⟩
  · rw [(told_hooks i).branch, isBranch]
    simp
  · obtain ⟨before, heq, hn⟩ := (told_hooks i).ends
    rw [heq, List.mem_append, List.mem_singleton, Hook.opcode.injEq, decide_eq_true_eq]
    constructor
    · rintro (hm | he)
      · exact absurd hm (hn o)
      · exact he.symm
    · intro he
      exact .inr he.symm

end Instruction

end Classfile
