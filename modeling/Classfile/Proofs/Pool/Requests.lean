import Classfile.Proofs.Pool.Growth

/-!
Whatever a program asks a pool for, and whether it gets it or not, the table and the map of the pool
stay inverses of each other. A request that needs several constants can fail after some of them were
added. What it leaves then is still a pool to which constants were only added one by one.
-/
namespace Classfile

open ConstantPool
open EStateM (Maintains maintains_pure maintains_throw)

variable {α β : Type} {pool pool' : ConstantPool} {c d : Constant} {i : ConstantIndex}

namespace PoolM

variable {P : ConstantPool → Prop}

theorem maintains_ask {question : ConstantPool → Except Fault α} :
    Maintains P (ask question) := by
  intro pool h
  rw [EStateM.left, ask]
  cases question pool with
  | ok a => exact h
  | error e => exact h

/-- A constant that cannot be added leaves the pool as it was. -/
theorem add_eq_error {e : Fault} (h : add c pool = .error e pool') : pool' = pool := by
  unfold add at h
  split at h
  · cases h
  · split at h
    · cases h
      rfl
    · dsimp only at h
      split at h <;> cases h
      rfl

section

theorem maintains_add (hadd : ∀ {pool c i pool'}, P pool → add c pool = .ok i pool' → P pool')
    (c : Constant) : Maintains P (add c) := by
  intro pool h
  cases hc : add c pool with
  | ok i pool' =>
    rw [EStateM.left_of_ok hc]
    exact hadd h hc
  | error e pool' =>
    rw [EStateM.left_of_error hc, add_eq_error hc]
    exact h

theorem maintains_coherent (c : Constant) : Maintains Coherent (add c) :=
  maintains_add (fun hp h => (coherent_add hp h).1) c

variable (hadd : ∀ c, Maintains P (add c))
include hadd

theorem maintains_addTypeName (name : String) : Maintains P (addTypeName name) :=
  (hadd _).bind fun _ => hadd _

theorem maintains_addSignature (name descriptor : String) :
    Maintains P (addSignature name descriptor) :=
  (hadd _).bind fun _ => (hadd _).bind fun _ => hadd _

theorem maintains_addAttribute [Payload α] (payload : α) : Maintains P (addAttribute payload) := by
  refine (hadd _).bind fun name => ?_
  cases Payload.write payload with
  | ok info => exact maintains_pure _
  | error cause => exact maintains_throw _

end

section

variable {x : PoolM α}

/-- The computation only ever adds to the pool, also when it fails. -/
def Enlarges (x : PoolM α) : Prop :=
  ∀ ⦃pool : ConstantPool⦄, pool.Regular → (x.left pool).Regular ∧ pool.Grows (x.left pool)

theorem Enlarges.of_ok {a : α} (hx : Enlarges x) (h : x pool = .ok a pool') (hp : pool.Regular) :
    pool'.Regular ∧ pool.Grows pool' := by
  have hl := hx hp
  rwa [EStateM.left_of_ok h] at hl

theorem Enlarges.of_error {fault : Fault} (hx : Enlarges x) (h : x pool = .error fault pool')
    (hp : pool.Regular) : pool'.Regular ∧ pool.Grows pool' := by
  have hl := hx hp
  rwa [EStateM.left_of_error h] at hl

theorem enlarges_of_maintains
    (hx : ∀ P : ConstantPool → Prop, (∀ c, Maintains P (add c)) → Maintains P x) :
    Enlarges x :=
  fun _ hp => hx _ (maintains_add regular_add_of_grows) ⟨hp, .refl _⟩

end

end PoolM

namespace ConstantPool

/-- What a program can ask of a pool. Numbers are asked for as constants. -/
inductive Request : Type 1
  | constant (c : Constant)
  | text (text : String)
  | string (text : String)
  | typeName (name : String)
  | signature (name descriptor : String)
  | fieldRef (owner name descriptor : String)
  | methodRef (ofInterface : Bool) (owner name descriptor : String)
  | methodType (descriptor : String)
  | methodHandle (kind : HandleKind) (member : ConstantIndex)
  | invokeDynamic (bootstrap : UInt16) (name descriptor : String)
  | attributeOf {α : Type} [Payload α] (payload : α)

/-- The pool after a request, granted or not. -/
def after (pool : ConstantPool) : Request → ConstantPool
  | .constant c => (PoolM.add c).left pool
  | .text text => (PoolM.addText text).left pool
  | .string text => (PoolM.addString text).left pool
  | .typeName name => (PoolM.addTypeName name).left pool
  | .signature name descriptor => (PoolM.addSignature name descriptor).left pool
  | .fieldRef owner name descriptor => (PoolM.addFieldRef owner name descriptor).left pool
  | .methodRef ofInterface owner name descriptor =>
    (PoolM.addMethodRef ofInterface owner name descriptor).left pool
  | .methodType descriptor => (PoolM.addMethodType descriptor).left pool
  | .methodHandle kind member => (PoolM.addMethodHandle kind member).left pool
  | .invokeDynamic bootstrap name descriptor =>
    (PoolM.addInvokeDynamic bootstrap name descriptor).left pool
  | @Request.attributeOf _ _ payload => (PoolM.addAttribute payload).left pool

def run (pool : ConstantPool) (requests : List Request) : ConstantPool := requests.foldl after pool

/-- What every addition of a constant keeps, every request keeps. -/
theorem after_invariant {P : ConstantPool → Prop}
    (hadd : ∀ {pool c i pool'}, P pool → PoolM.add c pool = .ok i pool' → P pool')
    (r : Request) (h : P pool) : P (pool.after r) := by
  have hadd := PoolM.maintains_add hadd
  have hname := PoolM.maintains_addTypeName hadd
  have hsig := PoolM.maintains_addSignature hadd
  cases r with
  | constant c => exact hadd c h
  | text text => exact hadd _ h
  | string text => exact ((hadd _).bind fun _ => hadd _) h
  | typeName name => exact hname name h
  | signature name descriptor => exact hsig name descriptor h
  | fieldRef owner name descriptor =>
    exact ((hname owner).bind fun _ => (hsig name descriptor).bind fun _ => hadd _) h
  | methodRef ofInterface owner name descriptor =>
    exact ((hname owner).bind fun _ => (hsig name descriptor).bind fun _ => hadd _) h
  | methodType descriptor => exact ((hadd _).bind fun _ => hadd _) h
  | methodHandle kind member =>
    exact (PoolM.maintains_ask.discard.bind fun _ => hadd _) h
  | invokeDynamic bootstrap name descriptor =>
    exact ((hsig name descriptor).bind fun _ => hadd _) h
  | attributeOf payload => exact PoolM.maintains_addAttribute hadd payload h

theorem run_invariant {P : ConstantPool → Prop}
    (hadd : ∀ {pool c i pool'}, P pool → PoolM.add c pool = .ok i pool' → P pool')
    (requests : List Request) (h : P pool) : P (pool.run requests) := by
  induction requests generalizing pool with
  | nil => exact h
  | cons r requests ih => exact ih (after_invariant hadd r h)

/-- New pools and pools of given constants, which a program begins with. -/
theorem coherent_start {start : ConstantPool}
    (hs : start = empty ∨ ∃ constants, ofTable (WidthTable.ofList 1 constants) = .ok start) :
    start.Coherent := by
  rcases hs with rfl | ⟨constants, h⟩
  · exact coherent_empty
  · exact coherent_ofTable h

theorem Coherent.run (hp : pool.Coherent) (requests : List Request) :
    (pool.run requests).Coherent :=
  run_invariant (fun hp h => (PoolM.coherent_add hp h).1) requests hp

/-- Nothing that the pool said before is different after a request. -/
theorem grows_after (hp : pool.Regular) (r : Request) : pool.Grows (pool.after r) :=
  (after_invariant PoolM.regular_add_of_grows r ⟨hp, .refl pool⟩).2

theorem Coherent.grows_run (hp : pool.Coherent) (requests : List Request) :
    pool.Grows (pool.run requests) := by
  induction requests generalizing pool with
  | nil => exact .refl pool
  | cons r requests ih => exact (grows_after hp.faithful.regular r).trans (ih (hp.run [r]))

/-- The map gives the index of the first entry. -/
def FirstFound (pool : ConstantPool) : Prop :=
  ∀ c, pool.lookup c = (pool.toList.find? (·.2 = c)).map (·.1)

theorem toList_push {indices : Std.HashMap Constant ConstantIndex} :
    (ConstantPool.mk (pool.table.push c) indices).toList =
      pool.toList ++ [(⟨UInt16.ofNat pool.extent⟩, c)] := by
  simp [toList, WidthTable.push, WidthTable.toList, extent]

theorem FirstFound.lookup_eq_none (hf : pool.FirstFound) :
    pool.lookup c = none ↔ c ∉ pool.toList.map (·.2) := by
  rw [hf c, Option.map_eq_none_iff, List.find?_eq_none, List.mem_map, not_exists]
  refine forall_congr' fun entry => ?_
  rw [decide_eq_true_iff, not_and]

theorem FirstFound.add (hf : pool.FirstFound) (h : PoolM.add c pool = .ok i pool') :
    pool'.FirstFound := by
  rcases PoolM.add_eq_ok h with ⟨-, rfl⟩ | ⟨hn, -, rfl, rfl⟩
  · exact hf
  · intro d
    rw [toList_push, List.find?_append, lookup, Std.HashMap.getElem?_insert]
    split
    · rename_i he
      obtain rfl := eq_of_beq he
      have hnone := hf c ▸ hn
      rw [Option.map_eq_none_iff] at hnone
      simp [hnone]
    · rename_i hne
      have hcd : ¬ c = d := by simpa using hne
      rw [← lookup, hf d]
      simp [hcd]

/-- The table and the map of the pool say the same. -/
structure Exact (pool : ConstantPool) : Prop where
  extent_le : pool.extent ≤ capacity
  extent_eq : pool.extent = 1 + Width.total (pool.toList.map (·.2))
  /-- The index of an entry has room for its offset in the table. -/
  cast : ∀ entry ∈ pool.table.toList, (UInt16.ofNat entry.1).toNat = entry.1
  index : ∀ before i c after, pool.toList = before ++ (i, c) :: after →
    i.value.toNat = 1 + Width.total (before.map (·.2))
  get : ∀ i c, pool.get? i = some c ↔ (i, c) ∈ pool.toList
  first : pool.FirstFound

theorem exact_of_coherent (hp : pool.Coherent) (hf : pool.FirstFound) : pool.Exact := by
  obtain ⟨constants, ht⟩ := hp.table
  have hx := hp.extent
  have hl := toList_eq ht
  have hc := toList_map_snd ht
  rw [extent, ht, WidthTable.ofList_extent] at hx
  have hcast : ∀ entry ∈ Width.placed 1 constants, (UInt16.ofNat entry.1).toNat = entry.1 :=
    fun entry he => toNat_ofNat_of_placed hx he
  refine ⟨hp.extent, ?_, ?_, ?_, ?_, hf⟩
  · rw [hc, extent, ht, WidthTable.ofList_extent]
  · rwa [ht, WidthTable.ofList_toList]
  · intro before i c after hsplit
    rw [hl, List.map_eq_append_iff] at hsplit
    obtain ⟨xs, rest, hxs, rfl, hrest⟩ := hsplit
    obtain ⟨entry, ys, rfl, he, rfl⟩ := List.map_eq_cons_iff.mp hrest
    cases he
    have hm : entry ∈ Width.placed 1 constants := by simp [hxs]
    change (UInt16.ofNat entry.1).toNat = _
    rw [hcast entry hm, Width.offset_of_placed hxs, List.map_map]
    rfl
  · intro i c
    rw [get?_eq_some ht, hl, List.mem_map]
    constructor
    · intro hm
      exact ⟨_, hm, by simp⟩
    · rintro ⟨entry, hm, he⟩
      cases he
      rwa [hcast entry hm]

theorem Exact.add_of_mem (h : pool.Exact) (hc : c ∈ pool.toList.map (·.2)) :
    ∃ i, pool.lookup c = some i ∧ PoolM.add c pool = .ok i pool := by
  cases hl : pool.lookup c with
  | none => exact absurd hc (h.first.lookup_eq_none.mp hl)
  | some i => exact ⟨i, rfl, by rw [PoolM.add, hl]⟩

theorem Exact.add_of_notMem (h : pool.Exact) (hc : c ∉ pool.toList.map (·.2))
    (ha : PoolM.add c pool = .ok i pool') : i.value.toNat = pool.extent ∧
      pool'.toList = pool.toList ++ [(i, c)] ∧ pool'.extent = pool.extent + c.width := by
  rcases PoolM.add_eq_ok ha with ⟨hl, -⟩ | ⟨-, hx, rfl, rfl⟩
  · rw [h.first.lookup_eq_none.mpr hc] at hl
    cases hl
  · have hw : 0 < c.width := c.width_pos
    refine ⟨UInt16.toNat_ofNat_of_lt' ?_, toList_push, rfl⟩
    simp only [capacity, UInt16.size] at hx ⊢
    omega

theorem firstFound_empty : empty.FirstFound := by
  intro c
  rw [lookup, empty, Std.HashMap.getElem?_empty]
  rfl

/-- What holds of a pool after any requests to a new pool, or to one of given constants. Its table
and its map say the same. A constant that is there is not added again, and one that is not there
goes to the end. No request changes what an index stands for. -/
theorem run_exact {start : ConstantPool} {requests : List Request}
    (hs : start = empty ∨ ∃ constants, ofTable (WidthTable.ofList 1 constants) = .ok start)
    (hr : start.run requests = pool) : pool.Exact ∧
      (∀ c ∈ pool.toList.map (·.2), ∃ i, pool.lookup c = some i ∧
        PoolM.add c pool = .ok i pool) ∧
      (∀ c i pool', c ∉ pool.toList.map (·.2) → PoolM.add c pool = .ok i pool' →
        i.value.toNat = pool.extent ∧ pool'.toList = pool.toList ++ [(i, c)] ∧
          pool'.extent = pool.extent + c.width) ∧
      ∀ r, pool.Grows (pool.after r) := by
  have h0 : start.Coherent ∧ start.FirstFound := by
    rcases hs with rfl | ⟨constants, h⟩
    · exact ⟨coherent_empty, firstFound_empty⟩
    · exact ⟨coherent_ofTable h, fun c => lookup_ofTable h⟩
  have h : pool.Coherent ∧ pool.FirstFound := by
    rw [← hr]
    refine run_invariant (P := fun pool => pool.Coherent ∧ pool.FirstFound) ?_ requests h0
    intro pool c i pool' ⟨hp, hf⟩ ha
    exact ⟨(PoolM.coherent_add hp ha).1, hf.add ha⟩
  have he := exact_of_coherent h.1 h.2
  exact ⟨he, fun c => he.add_of_mem, fun c i pool' => he.add_of_notMem,
    grows_after h.1.faithful.regular⟩

/-- A wide constant, and another one twice. The map finds the first of the two, also after a method
handle was asked for whose member would be the second slot of the wide constant. -/
theorem run_exact_twice : ∃ start pool,
    ofTable (WidthTable.ofList 1 [.long 5, .integer 7, .integer 7]) = .ok start ∧
    start.run [.methodHandle .getField ⟨2⟩] = pool ∧
    pool.lookup (.integer 7) = some ⟨3⟩ ∧ PoolM.add (.integer 7) pool = .ok ⟨3⟩ pool := by
  obtain ⟨start, hs⟩ : ∃ start,
    ofTable (WidthTable.ofList 1 [.long 5, .integer 7, .integer 7]) = .ok start := ⟨_, rfl⟩
  obtain ⟨-, rfl, -⟩ := ofTable_eq_ok hs
  obtain ⟨he, hadd, -⟩ := @run_exact _ _ [.methodHandle .getField ⟨2⟩] (.inr ⟨_, hs⟩) rfl
  have hl : ConstantPool.lookup _ (.integer 7) = some ⟨3⟩ := he.first (.integer 7)
  obtain ⟨i, hi, ha⟩ := hadd (.integer 7) (by decide)
  cases hl.symm.trans hi
  exact ⟨_, _, hs, rfl, hl, ha⟩

end ConstantPool

end Classfile
