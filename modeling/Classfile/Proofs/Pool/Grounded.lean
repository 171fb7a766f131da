import Classfile.Pool.Display
import Classfile.Proofs.Pool.Admission
import Mathlib.Data.List.Chain
import Mathlib.Data.List.Perm.Subperm
import Mathlib.Order.WellFounded

/-!
Where references lead. Given constants were asked for the kinds of what they refer to, and each kind
only refers to lower ones; a constant that is added only refers to older ones, of whatever kind. So
no constant leads back to itself, however a pool came about, and a method handle is shown in full
without going round in a circle.
-/
namespace Classfile

open ConstantPool

variable {pool pool' : ConstantPool} {c d : Constant} {i : ConstantIndex} {path : List Constant}
  {outcome : Except Fault String}

/-! ### Levels of given constants -/

/-- The kinds in order: a constant whose references have the right kinds refers to lower ones. -/
def Constant.level : Constant → Nat
  | utf8 _ | integer _ | float _ | long _ | double _ => 0
  | typeName _ | string _ | nameAndType .. | methodType _ | moduleName _ | packageName _ => 1
  | fieldRef .. | methodRef .. | dynamic .. | invokeDynamic .. => 2
  | methodHandle .. => 3

/-- No constant that can play the role is on a higher level. -/
def Role.level : Role → Nat
  | utf8 => 0
  | typeName | nameAndType => 1
  | handleMember => 2
  | _ => 3

theorem Constant.level_le (c : Constant) : c.level ≤ 3 := by
  cases c <;> simp [level]

theorem Role.level_le_of_accepts {role : Role} (h : role.accepts c = true) :
    c.level ≤ role.level := by
  cases role with
  | utf8 | typeName | nameAndType | handleMember =>
    cases c <;> first | exact Nat.le_refl _ | cases h
  | _ => exact c.level_le

theorem Constant.level_lt_of_mem_references {ref : ConstantIndex × Role}
    (h : ref ∈ c.references) : ref.2.level < c.level := by
  revert ref
  cases c <;> simp [references, Role.level, level]

namespace ConstantPool

/-- The first constant refers to the second one, which the pool holds. -/
def RefersTo (pool : ConstantPool) (c d : Constant) : Prop :=
  ∃ ref ∈ c.references, pool.get? ref.1 = some d

/-- Going on from a constant to one that it refers to comes to an end, whichever one chooses. -/
def Grounded (pool : ConstantPool) : Prop := WellFounded (flip pool.RefersTo)

theorem Resolves.level_lt (h : pool.Resolves c) (hr : pool.RefersTo c d) : d.level < c.level := by
  obtain ⟨ref, hm, hd⟩ := hr
  obtain ⟨d', hd', ha⟩ := h ref hm
  cases hd.symm.trans hd'
  exact Nat.lt_of_le_of_lt (Role.level_le_of_accepts ha) (Constant.level_lt_of_mem_references hm)

/-- Every reference leads into the pool, so only the constants in it matter. -/
theorem grounded_of_held (h : ∀ i c, pool.get? i = some c → Acc (flip pool.RefersTo) c) :
    pool.Grounded := by
  refine ⟨fun c => ⟨c, fun d hr => ?_⟩⟩
  obtain ⟨ref, -, hd⟩ := hr
  exact h ref.1 d hd

theorem Sound.grounded (hp : pool.Sound) : pool.Grounded := by
  refine grounded_of_held fun i c hc => ?_
  -- what is referred to is on a lower level
  induction hn : c.level using Nat.strong_induction_on generalizing i c with
  | _ n ih =>
    refine ⟨c, fun d hr => ?_⟩
    have hlt := (hp.resolves i c hc).level_lt hr
    obtain ⟨ref, -, hd⟩ := hr
    exact ih d.level (hn ▸ hlt) ref.1 d hd rfl

/-! ### One constant more -/

theorem Finds.refersTo_iff (h : pool.Finds c) (hg : pool.Grows pool') :
    pool'.RefersTo c d ↔ pool.RefersTo c d := by
  refine exists_congr fun ref => and_congr_right fun hm => ⟨fun hd => ?_, fun hd => hg hd⟩
  obtain ⟨d', hd'⟩ := h ref hm
  cases (hg hd').symm.trans hd
  exact hd'

/-- A constant all of whose references are old does not come to anything new from there. -/
theorem Closed.acc_of_finds (hp : pool.Closed) (hg : pool.Grounded) (hgrows : pool.Grows pool')
    (hc : pool.Finds c) : Acc (flip pool'.RefersTo) c := by
  induction c using hg.induction with
  | _ c ih =>
    refine ⟨c, fun d hr => ?_⟩
    have hr := (hc.refersTo_iff hgrows).mp hr
    obtain ⟨ref, hm, hd⟩ := hr
    exact ih d ⟨ref, hm, hd⟩ (hp.finds ref.1 d hd)

theorem Closed.grounded_add (hp : pool.Closed) (hg : pool.Grounded)
    (h : PoolM.add c pool = .ok i pool') : pool'.Grounded := by
  obtain ⟨-, hgrows, hfinds, -⟩ := hp.add h
  refine grounded_of_held fun j d hd => hp.acc_of_finds hg hgrows ?_
  rcases PoolM.add_eq_ok h with ⟨-, rfl⟩ | ⟨-, -, rfl, rfl⟩
  · exact hp.finds j d hd
  · obtain ⟨first, constants, ht⟩ := hp.regular
    rcases (PoolM.get?_push ht).mp hd with hd | ⟨-, rfl⟩
    · exact hp.finds j d hd
    · exact hfinds

theorem Sound.grounded_run (hp : pool.Sound) (requests : List Request) :
    (pool.run requests).Closed ∧ (pool.run requests).Grounded := by
  refine run_invariant (P := fun pool => pool.Closed ∧ pool.Grounded) ?_ requests
    ⟨hp.closed, hp.grounded⟩
  rintro pool c i pool' ⟨hp, hg⟩ h
  exact ⟨(hp.add h).1, hp.grounded_add hg h⟩

/-! ### Ways along references -/

theorem Grounded.not_transGen (hg : pool.Grounded) (c : Constant) :
    ¬ Relation.TransGen pool.RefersTo c c := by
  intro h
  exact hg.transGen.irrefl.irrefl c (Relation.transGen_swap.mpr h)

/-- A way along references meets no constant twice. -/
theorem Grounded.nodup (hg : pool.Grounded) (h : path.IsChain pool.RefersTo) : path.Nodup := by
  have hway : path.IsChain (Relation.TransGen pool.RefersTo) := h.imp fun _ _ => .single
  refine hway.pairwise.imp fun {c d} hcd hne => ?_
  subst hne
  exact hg.not_transGen c hcd

theorem Regular.mem_toList (hr : pool.Regular) (hc : pool.get? i = some c) :
    c ∈ pool.toList.map (·.2) := by
  obtain ⟨first, constants, ht⟩ := hr
  rw [get?_eq_some ht] at hc
  rw [toList_eq ht, List.map_map]
  exact List.mem_map_of_mem hc

/-- So it is not longer than the pool. -/
theorem Grounded.length_le (hg : pool.Grounded) (hr : pool.Regular)
    (h : path.IsChain pool.RefersTo) (hheld : ∀ c ∈ path, ∃ i, pool.get? i = some c) :
    path.length ≤ pool.size := by
  have hsub : path ⊆ pool.toList.map (·.2) := by
    intro c hc
    obtain ⟨i, hi⟩ := hheld c hc
    exact hr.mem_toList hi
  calc path.length ≤ (pool.toList.map (·.2)).length :=
        (List.subperm_of_subset (hg.nodup h) hsub).length_le
    _ = pool.size := by simp [toList, size, WidthTable.toList, WidthTable.size]

/-! ### Rendering without a bound -/

/-- How an index is rendered if nothing bounds how many handles may follow on each other: which
constants are shown in full, one in the other, and the text or the fault that comes of it. -/
inductive Renders (pool : ConstantPool) :
    ConstantIndex → List Constant → Except Fault String → Prop
  | missing {i : ConstantIndex} (h : pool.get? i = none) :
      Renders pool i [] (.error (.noConstant i))
  /-- All but handles are shown in one step. -/
  | plain {i : ConstantIndex} {c : Constant} (h : pool.get? i = some c)
      (hc : ∀ kind member, c ≠ .methodHandle kind member) : Renders pool i [c] (pool.render 1 i)
  /-- Behind the kind of a handle stands whatever its member is shown as. -/
  | handle {i member : ConstantIndex} {kind : HandleKind} {path : List Constant}
      {outcome : Except Fault String} (h : pool.get? i = some (.methodHandle kind member))
      (hm : Renders pool member path outcome) :
      Renders pool i (.methodHandle kind member :: path) (outcome.map (kind.name ++ " " ++ ·))

namespace Renders

theorem unique {path' : List Constant} {outcome' : Except Fault String}
    (h : pool.Renders i path outcome) (h' : pool.Renders i path' outcome') :
    path' = path ∧ outcome' = outcome := by
  induction h generalizing path' outcome' with
  | missing hi =>
    cases h' with
    | missing => exact ⟨rfl, rfl⟩
    | plain hi' | handle hi' => cases hi.symm.trans hi'
  | plain hi hc =>
    cases h' with
    | missing hi' => cases hi.symm.trans hi'
    | plain hi' =>
      cases hi.symm.trans hi'
      exact ⟨rfl, rfl⟩
    | handle hi' =>
      cases hi.symm.trans hi'
      exact absurd rfl (hc _ _)
  | handle hi _ ih =>
    cases h' with
    | missing hi' => cases hi.symm.trans hi'
    | plain hi' hc =>
      cases hi.symm.trans hi'
      exact absurd rfl (hc _ _)
    | handle hi' hm =>
      cases hi.symm.trans hi'
      obtain ⟨rfl, rfl⟩ := ih hm
      exact ⟨rfl, rfl⟩

/-- The bound does not matter as long as all that is shown keeps within it. -/
theorem render_eq {depth : Nat} (h : pool.Renders i path outcome) (hd : path.length ≤ depth) :
    pool.render depth i = outcome := by
  induction h generalizing depth with
  | @missing i hi =>
    cases depth with
    | zero => rfl
    | succ depth => rw [render, get, hi, Except.error_bind]
  | @plain i c hi hc =>
    cases depth with
    | zero => cases hd
    | succ depth =>
      rw [render, render, get_eq_ok.mpr hi]
      cases c with
      | methodHandle kind member => exact absurd rfl (hc kind member)
      | _ => rfl
  | @handle i member kind path outcome hi _ ih =>
    cases depth with
    | zero => cases hd
    | succ depth =>
      have hm := ih (Nat.le_of_succ_le_succ hd)
      rw [render, get_eq_ok.mpr hi, Except.ok_bind]
      simp only [hm]
      cases outcome <;> rfl

/-- Each constant that is shown refers to the next one. -/
theorem isChain (h : pool.Renders i path outcome) : path.IsChain pool.RefersTo ∧
    (∀ c ∈ path, ∃ j, pool.get? j = some c) ∧ ∀ c ∈ path.head?, pool.get? i = some c := by
  induction h with
  | missing => exact ⟨.nil, nofun, nofun⟩
  | @plain i c hi =>
    refine ⟨.singleton c, List.forall_mem_singleton.mpr ⟨i, hi⟩, ?_⟩
    rintro _ ⟨⟩
    exact hi
  | @handle i member kind path outcome hi _ ih =>
    obtain ⟨hchain, hheld, hhead⟩ := ih
    refine ⟨List.isChain_cons.mpr ⟨fun d hd => ?_, hchain⟩,
      List.forall_mem_cons.mpr ⟨⟨i, hi⟩, hheld⟩, ?_⟩
    · exact ⟨_, List.mem_singleton_self _, hhead d hd⟩
    · rintro _ ⟨⟩
      exact hi

end Renders

theorem Grounded.exists_renders (hg : pool.Grounded) (i : ConstantIndex) :
    ∃ path outcome, pool.Renders i path outcome := by
  cases hi : pool.get? i with
  | none => exact ⟨_, _, .missing hi⟩
  | some c =>
    induction c using hg.induction generalizing i with
    | _ c ih =>
      by_cases hc : ∃ kind member, c = .methodHandle kind member
      · obtain ⟨kind, member, rfl⟩ := hc
        cases hm : pool.get? member with
        | none => exact ⟨_, _, .handle hi (.missing hm)⟩
        | some d =>
          have hr : pool.RefersTo (.methodHandle kind member) d :=
            ⟨_, List.mem_singleton_self _, hm⟩
          obtain ⟨path, outcome, h⟩ := ih d hr member hm
          exact ⟨_, _, .handle hi h⟩
      · simp only [not_exists] at hc
        exact ⟨_, _, .plain hi hc⟩

/-- After any requests to a new pool, or to one of given constants, no constant leads back to itself
along references. Without any bound the rendering of every index ends, be there a constant or not:
no more constants are shown one in the other than the pool has, and what comes of it is what any
bound from there on gives and what is displayed. -/
theorem acyclic_run {start : ConstantPool} {requests : List Request}
    (hs : start = empty ∨
      ∃ first constants, ofTable (WidthTable.ofList first constants) = .ok start)
    (hr : start.run requests = pool) :
    (∀ c, ¬ Relation.TransGen pool.RefersTo c c) ∧
    ∀ i, ∃ path outcome,
      (∀ path' outcome', pool.Renders i path' outcome' ↔ path' = path ∧ outcome' = outcome) ∧
      path.length ≤ pool.size ∧
      (∀ depth, pool.size ≤ depth → pool.render depth i = outcome) ∧
      pool.display i = outcome.toOption.getD ("<invalid " ++ i.describe ++ ">") := by
  have hstart : start.Sound := by
    rcases hs with rfl | ⟨first, constants, h⟩
    · exact sound_empty
    · exact sound_ofTable h
  obtain ⟨hp, hg⟩ : pool.Closed ∧ pool.Grounded := hr ▸ hstart.grounded_run requests
  refine ⟨hg.not_transGen, fun i => ?_⟩
  obtain ⟨path, outcome, h⟩ := hg.exists_renders i
  obtain ⟨hchain, hheld, -⟩ := h.isChain
  have hlength := hg.length_le hp.regular hchain hheld
  refine ⟨path, outcome, fun path' outcome' => ⟨h.unique, ?_⟩, hlength, fun depth hd => ?_, ?_⟩
  · rintro ⟨rfl, rfl⟩
    exact h
  · exact h.render_eq (Nat.le_trans hlength hd)
  · rw [display, h.render_eq (Nat.le_succ_of_le hlength)]
    cases outcome <;> rfl

/-- A handle before everything that it needs, and a handle of the handle added later. It is shown
through both of them. -/
theorem acyclic_run_handles : ∃ start pool,
    ofTable (WidthTable.ofList 1 [.methodHandle .invokeStatic ⟨2⟩, .methodRef false ⟨3⟩ ⟨4⟩,
      .typeName ⟨5⟩, .nameAndType ⟨5⟩ ⟨6⟩, .utf8 "A", .utf8 "()V"]) = .ok start ∧
    start.run [.constant (.methodHandle .invokeVirtual ⟨1⟩)] = pool ∧
    (∀ c, ¬ Relation.TransGen pool.RefersTo c c) ∧
    pool.display ⟨7⟩ = "InvokeVirtual InvokeStatic A.A:()V" ∧
    pool.display ⟨9⟩ = "<invalid #9>" := by
  obtain ⟨start, hs⟩ : ∃ start,
    ofTable (WidthTable.ofList 1 [.methodHandle .invokeStatic ⟨2⟩, .methodRef false ⟨3⟩ ⟨4⟩,
      .typeName ⟨5⟩, .nameAndType ⟨5⟩ ⟨6⟩, .utf8 "A", .utf8 "()V"]) = .ok start := ⟨_, rfl⟩
  have hl : start.lookup (.methodHandle .invokeVirtual ⟨1⟩) = none := by
    rw [lookup_ofTable hs]
    obtain ⟨-, rfl, -⟩ := ofTable_eq_ok hs
    rfl
  obtain ⟨pool, hadd, h7, h1, h2, h9, hmember⟩ : ∃ pool,
      PoolM.add (.methodHandle .invokeVirtual ⟨1⟩) start = .ok ⟨7⟩ pool ∧
      pool.get? ⟨7⟩ = some (.methodHandle .invokeVirtual ⟨1⟩) ∧
      pool.get? ⟨1⟩ = some (.methodHandle .invokeStatic ⟨2⟩) ∧
      pool.get? ⟨2⟩ = some (.methodRef false ⟨3⟩ ⟨4⟩) ∧ pool.get? ⟨9⟩ = none ∧
      pool.render 1 ⟨2⟩ = .ok "A.A:()V" := by
    obtain ⟨-, rfl, -⟩ := ofTable_eq_ok hs
    exact ⟨_, PoolM.add_of_absent hl (List.forall_mem_singleton.mpr rfl), rfl, rfl, rfl, rfl, rfl⟩
  have hr : start.run [.constant (.methodHandle .invokeVirtual ⟨1⟩)] = pool := after_constant hadd
  obtain ⟨hacyclic, hends⟩ := acyclic_run (.inr ⟨1, _, hs⟩) hr
  refine ⟨start, pool, hs, hr, hacyclic, ?_, ?_⟩
  · obtain ⟨path, outcome, hiff, -, -, hd⟩ := hends ⟨7⟩
    obtain ⟨-, rfl⟩ := (hiff _ _).mp (.handle h7 (.handle h1 (.plain h2 nofun)))
    rw [hd, hmember]
    rfl
  · obtain ⟨path, outcome, hiff, -, -, hd⟩ := hends ⟨9⟩
    obtain ⟨-, rfl⟩ := (hiff _ _).mp (.missing h9)
    rw [hd]
    rfl

end ConstantPool

end Classfile
