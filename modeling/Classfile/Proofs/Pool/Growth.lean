import Classfile.Pool.Access
import Classfile.Proofs.Except
import Classfile.Proofs.WidthTable

/-!
A pool only grows: what it says about an index it keeps saying, whatever is added to it. Its table
decides what it holds, and the map from constants to indices agrees with the table.
-/
namespace Classfile

variable {α : Type} {pool pool' : ConstantPool} {c : Constant} {i : ConstantIndex}

namespace PoolM

theorem ask_eq_ok {a : α} {question : ConstantPool → Except Fault α} :
    ask question pool = .ok a pool' ↔ question pool = .ok a ∧ pool = pool' := by
  rw [ask]
  cases question pool <;> simp

theorem ask_eq_error {fault : Fault} {question : ConstantPool → Except Fault α} :
    ask question pool = .error fault pool' ↔ question pool = .error fault ∧ pool = pool' := by
  rw [ask]
  cases question pool <;> simp

/-- What follows a question has to be the same for its answers only. -/
theorem ask_bind_congr {β : Type} {answer : Except Fault α} {f g : α → PoolM β}
    (h : ∀ a, answer = .ok a → f a = g a) :
    (ask fun _ => answer) >>= f = (ask fun _ => answer) >>= g := by
  cases answer with
  | ok a =>
    funext pool
    exact congrFun (h a rfl) pool
  | error e => rfl

end PoolM

namespace ConstantPool

theorem get_eq_ok : pool.get i = .ok c ↔ pool.get? i = some c := by
  unfold get
  cases pool.get? i <;> simp

theorem require_eq_ok {role : Role} :
    pool.require role i = .ok c ↔ pool.get? i = some c ∧ role.accepts c := by
  rw [require, Except.bind_eq_ok]
  constructor
  · rintro ⟨d, hd, h⟩
    split at h
    · cases h
      exact ⟨get_eq_ok.mp hd, by assumption⟩
    · cases h
  · rintro ⟨hc, hr⟩
    exact ⟨c, get_eq_ok.mpr hc, if_pos hr⟩

theorem checked_eq_ok {role : Role} {j : ConstantIndex} :
    pool.checked role i = .ok j ↔ i = j ∧ ∃ c, pool.get? i = some c ∧ role.accepts c := by
  rw [checked, Except.bind_eq_ok]
  constructor
  · rintro ⟨_, hu, h⟩
    obtain ⟨c, hc, -⟩ := Except.map_eq_ok.mp hu
    cases h
    exact ⟨rfl, c, require_eq_ok.mp hc⟩
  · rintro ⟨rfl, c, hc⟩
    exact ⟨(), Except.map_eq_ok.mpr ⟨c, require_eq_ok.mpr hc, rfl⟩, rfl⟩

theorem text_eq_ok {text : String} : pool.text i = .ok text ↔ pool.get? i = some (.utf8 text) := by
  rw [ConstantPool.text, Except.bind_eq_ok]
  constructor
  · rintro ⟨c, hc, h⟩
    rw [get_eq_ok] at hc
    split at h
    · cases h
      exact hc
    · cases h
  · intro h
    exact ⟨_, get_eq_ok.mpr h, rfl⟩

/-- Whatever an index stands for in the first pool it stands for in the second one. -/
def Grows (pool pool' : ConstantPool) : Prop :=
  ∀ ⦃i c⦄, pool.get? i = some c → pool'.get? i = some c

namespace Grows

theorem refl (pool : ConstantPool) : pool.Grows pool := fun _ _ h => h

theorem trans {mid : ConstantPool} (h : pool.Grows mid) (h' : mid.Grows pool') :
    pool.Grows pool' := fun _ _ hc => h' (h hc)

theorem text {t : String} (h : pool.Grows pool') (ht : pool.text i = .ok t) :
    pool'.text i = .ok t := text_eq_ok.mpr (h (text_eq_ok.mp ht))

theorem require {role : Role} (h : pool.Grows pool') (hc : pool.require role i = .ok c) :
    pool'.require role i = .ok c :=
  require_eq_ok.mpr ((require_eq_ok.mp hc).imp_left fun hc => h hc)

theorem checked {role : Role} {j : ConstantIndex} (h : pool.Grows pool')
    (hc : pool.checked role i = .ok j) : pool'.checked role i = .ok j := by
  obtain ⟨rfl, c, hc, hr⟩ := checked_eq_ok.mp hc
  exact checked_eq_ok.mpr ⟨rfl, c, h hc, hr⟩

end Grows

/-- Constants lie one behind the other, from wherever the table begins. -/
def Regular (pool : ConstantPool) : Prop :=
  ∃ first constants, pool.table = WidthTable.ofList first constants

/-- Wherever the table begins, it has room for all its indices, and the map gives an index for the
constants that are in the table and for no others. -/
structure Faithful (pool : ConstantPool) : Prop where
  regular : pool.Regular
  extent : pool.extent ≤ capacity
  get_lookup : ∀ {c i}, pool.lookup c = some i → pool.get? i = some c
  lookup_get : ∀ {c i}, pool.get? i = some c → ∃ j, pool.lookup c = some j

/-- The table begins at one and has room for all its indices, and the map gives an index for the
constants that are in the table and for no others. -/
structure Coherent (pool : ConstantPool) : Prop where
  table : ∃ constants, pool.table = WidthTable.ofList 1 constants
  extent : pool.extent ≤ capacity
  get_lookup : ∀ {c i}, pool.lookup c = some i → pool.get? i = some c
  lookup_get : ∀ {c i}, pool.get? i = some c → ∃ j, pool.lookup c = some j

theorem Coherent.faithful (h : pool.Coherent) : pool.Faithful where
  regular := ⟨1, h.table⟩
  extent := h.extent
  get_lookup := h.get_lookup
  lookup_get := h.lookup_get

end ConstantPool

theorem Constant.width_pos (c : Constant) : 0 < Width.width c := by
  simp only [Width.width, Constant.width]
  split <;> omega

namespace ConstantPool

variable {constants : List Constant} {first : Nat}

theorem get?_eq_some (h : pool.table = WidthTable.ofList first constants) :
    pool.get? i = some c ↔ (i.value.toNat, c) ∈ Width.placed first constants := by
  rw [get?, h]
  exact WidthTable.find?_eq_some fun c _ => c.width_pos

theorem toList_eq (h : pool.table = WidthTable.ofList first constants) : pool.toList =
    (Width.placed first constants).map fun entry => (⟨UInt16.ofNat entry.1⟩, entry.2) := by
  rw [toList, h, WidthTable.ofList_toList]

theorem toList_map_snd (h : pool.table = WidthTable.ofList 1 constants) :
    pool.toList.map (·.2) = constants := by
  rw [toList_eq h, List.map_map]
  exact Width.placed_map_snd

/-- Zero is the index of no constant. -/
theorem Coherent.get?_zero (h : pool.Coherent) : pool.get? ⟨0⟩ = none := by
  obtain ⟨constants, ht⟩ := h.table
  cases hc : pool.get? ⟨0⟩ with
  | none => rfl
  | some c =>
    have hb := (Width.placed_bounds ((get?_eq_some ht).mp hc)).1
    cases hb

theorem coherent_empty : empty.Coherent where
  table := ⟨[], rfl⟩
  extent := by decide
  get_lookup := by
    intro c i h
    simp [lookup, empty] at h
  lookup_get := by
    intro c i h
    have ht : empty.table = WidthTable.ofList 1 [] := rfl
    rw [get?_eq_some ht] at h
    cases h

theorem toNat_ofNat_of_placed {entry : Nat × Constant}
    (he : first + Width.total constants ≤ capacity) (h : entry ∈ Width.placed first constants) :
    (UInt16.ofNat entry.1).toNat = entry.1 := by
  have hb := Width.lt_of_mem_placed (fun c _ => c.width_pos) h
  refine UInt16.toNat_ofNat_of_lt' ?_
  simp only [capacity, UInt16.size] at he ⊢
  omega

/-- Remember the first index of a constant. -/
def remember (indices : Std.HashMap Constant ConstantIndex) (entry : Nat × Constant) :
    Std.HashMap Constant ConstantIndex := indices.insertIfNew entry.2 ⟨UInt16.ofNat entry.1⟩

/-- Among entries it is the first one of a constant that is remembered. -/
theorem foldl_remember {entries : List (Nat × Constant)}
    {indices : Std.HashMap Constant ConstantIndex} : (entries.foldl remember indices)[c]? =
      (indices[c]?).or ((entries.find? (·.2 = c)).map fun entry => ⟨UInt16.ofNat entry.1⟩) := by
  induction entries generalizing indices with
  | nil => simp
  | cons entry entries ih =>
    rw [List.foldl_cons, ih, remember, Std.HashMap.getElem?_insertIfNew, List.find?_cons]
    by_cases hc : entry.2 = c
    · subst hc
      cases hi : indices[entry.2]? with
      | some i => simp [Std.HashMap.mem_iff_isSome_getElem?, hi]
      | none => simp [Std.HashMap.mem_iff_isSome_getElem?, hi]
    · simp [hc]

theorem ofTable_eq_ok {table : WidthTable Constant} (h : ofTable table = .ok pool) :
    table.extent ≤ capacity ∧ pool = ⟨table, table.toList.foldl remember ∅⟩ ∧
      ∀ entry ∈ table.toList, pool.checkReferences entry.2 = .ok () := by
  unfold ofTable at h
  split at h
  · cases h
  · rename_i hx
    obtain ⟨_, hr, h⟩ := Except.bind_eq_ok.mp h
    rw [← Array.foldl_toList] at hr h
    cases h
    exact ⟨by omega, rfl, Except.forM_eq_ok.mp hr⟩

theorem regular_ofTable (h : ofTable (WidthTable.ofList first constants) = .ok pool) :
    pool.Regular := by
  obtain ⟨-, rfl, -⟩ := ofTable_eq_ok h
  exact ⟨first, constants, rfl⟩

theorem ofTable_of_references {table : WidthTable Constant} (hx : table.extent ≤ capacity)
    (hr : ∀ entry ∈ table.toList,
      (ConstantPool.mk table (table.toList.foldl remember ∅)).checkReferences entry.2 = .ok ()) :
    ofTable table = .ok ⟨table, table.toList.foldl remember ∅⟩ := by
  unfold ofTable
  rw [if_neg (Nat.not_lt.mpr hx), ← Array.foldl_toList]
  exact Except.bind_eq_ok.mpr ⟨(), Except.forM_eq_ok.mpr hr, rfl⟩

/-- Constants that refer to no others make a pool, if there is room for them. -/
theorem exists_ofTable (hx : 1 + Width.total constants ≤ capacity)
    (hr : ∀ c ∈ constants, c.references = []) :
    ∃ pool, ofTable (WidthTable.ofList 1 constants) = .ok pool := by
  refine ⟨_, ofTable_of_references (by rwa [WidthTable.ofList_extent]) fun entry he => ?_⟩
  rw [WidthTable.ofList_toList] at he
  have hm : entry.2 ∈ (Width.placed 1 constants).map (·.2) := List.mem_map_of_mem he
  rw [Width.placed_map_snd] at hm
  rw [checkReferences, hr entry.2 hm]
  rfl

/-- Of equal constants the first one is found. -/
theorem lookup_ofTable {table : WidthTable Constant} (h : ofTable table = .ok pool) :
    pool.lookup c = (pool.toList.find? (·.2 = c)).map (·.1) := by
  obtain ⟨-, rfl, -⟩ := ofTable_eq_ok h
  rw [lookup, foldl_remember, Std.HashMap.getElem?_empty, Option.none_or, toList, List.find?_map,
    Option.map_map]
  rfl

/-- The map agrees with the table if it gives the first index of every constant. -/
theorem faithful_of_lookup (hr : pool.Regular) (hx : pool.extent ≤ capacity)
    (hl : ∀ c, pool.lookup c = (pool.toList.find? (·.2 = c)).map (·.1)) : pool.Faithful := by
  have ⟨first, constants, ht⟩ := hr
  have htl := toList_eq ht
  refine ⟨hr, hx, ?_, ?_⟩
  · intro c i hi
    rw [extent, ht, WidthTable.ofList_extent] at hx
    obtain ⟨entry, hf, rfl⟩ := Option.map_eq_some_iff.mp (hl c ▸ hi)
    obtain rfl : entry.2 = c := by simpa using List.find?_some hf
    obtain ⟨placed, hm, rfl⟩ := List.mem_map.mp (htl ▸ List.mem_of_find?_eq_some hf)
    rwa [get?_eq_some ht, toNat_ofNat_of_placed hx hm]
  · intro c i hc
    rw [get?_eq_some ht] at hc
    have hs : (pool.toList.find? (·.2 = c)).isSome := by
      rw [List.find?_isSome, htl]
      exact ⟨_, List.mem_map_of_mem hc, decide_eq_true rfl⟩
    obtain ⟨entry, hf⟩ := Option.isSome_iff_exists.mp hs
    exact ⟨entry.1, by rw [hl, hf, Option.map_some]⟩

theorem faithful_ofTable (h : ofTable (WidthTable.ofList first constants) = .ok pool) :
    pool.Faithful := by
  refine faithful_of_lookup (regular_ofTable h) ?_ fun c => lookup_ofTable h
  obtain ⟨hx, rfl, -⟩ := ofTable_eq_ok h
  exact hx

theorem coherent_ofTable (h : ofTable (WidthTable.ofList 1 constants) = .ok pool) :
    pool.Coherent := by
  have hf := faithful_ofTable h
  obtain ⟨-, hp, -⟩ := ofTable_eq_ok h
  exact ⟨⟨constants, by rw [hp]⟩, hf.extent, hf.get_lookup, hf.lookup_get⟩

end ConstantPool

namespace PoolM

open ConstantPool

/-- Either the constant was there, or it is pushed at the end of the table. -/
theorem add_eq_ok (h : add c pool = .ok i pool') : (pool.lookup c = some i ∧ pool' = pool) ∨
    (pool.lookup c = none ∧ pool.extent + c.width ≤ capacity ∧
      i = ⟨UInt16.ofNat pool.extent⟩ ∧ pool' = ⟨pool.table.push c, pool.indices.insert c i⟩) := by
  unfold add at h
  split at h
  · cases h
    exact .inl ⟨by assumption, rfl⟩
  · split at h
    · cases h
    · dsimp only at h
      split at h
      · cases h
      · cases h
        exact .inr ⟨by assumption, by omega, rfl, rfl⟩

theorem add_of_lookup (h : pool.lookup c = some i) : add c pool = .ok i pool := by
  rw [add, h]

/-- A constant of the table is found where it comes first. -/
theorem add_of_ofTable {table : WidthTable Constant} (h : ofTable table = .ok pool)
    (hc : (pool.toList.find? (·.2 = c)).map (·.1) = some i) : add c pool = .ok i pool :=
  add_of_lookup ((lookup_ofTable h).trans hc)

/-- A constant that is not there, but all of whose references are, is added if it has room. -/
theorem add_of_absent (hl : pool.lookup c = none)
    (hr : ∀ ref ∈ c.references, (pool.get? ref.1).isSome = true) : add c pool =
      if pool.extent + c.width > capacity then .error (.poolOverflow c pool.extent) pool
      else .ok ⟨UInt16.ofNat pool.extent⟩
        ⟨pool.table.push c, pool.indices.insert c ⟨UInt16.ofNat pool.extent⟩⟩ := by
  have hf : c.references.find? (fun ref => (pool.get? ref.1).isNone) = none := by
    refine List.find?_eq_none.mpr fun ref hm => ?_
    simp [Option.isSome_iff_ne_none.mp (hr ref hm)]
  rw [add, hl]
  simp only [hf]

/-- A constant that is added never takes the pool's slots past the words. -/
theorem place_of_fits {overflow : Overflow} (h : pool.extent + c.width ≤ capacity) :
    WidthTable.place overflow c pool.table = some (pool.extent, pool.table.push c) :=
  WidthTable.place_of_room (Nat.lt_of_le_of_lt h (by decide))

theorem get?_push (ht : pool.table = WidthTable.ofList first constants) {d : Constant}
    {indices : Std.HashMap Constant ConstantIndex} :
    (ConstantPool.mk (pool.table.push c) indices).get? i = some d ↔
      pool.get? i = some d ∨ (i.value.toNat = pool.extent ∧ d = c) := by
  have ht' : (ConstantPool.mk (pool.table.push c) indices).table =
      WidthTable.ofList first (constants ++ [c]) := by
    rw [ht, WidthTable.push_ofList]
  rw [get?_eq_some ht', get?_eq_some ht, Width.placed_append, List.mem_append, extent, ht,
    WidthTable.ofList_extent]
  simp [Width.placed]

/-- Wherever the table begins, adding to it changes nothing before its end. -/
theorem regular_add (hp : pool.Regular) (h : add c pool = .ok i pool') :
    pool'.Regular ∧ pool.Grows pool' := by
  rcases add_eq_ok h with ⟨-, rfl⟩ | ⟨-, -, rfl, rfl⟩
  · exact ⟨hp, Grows.refl _⟩
  · obtain ⟨first, constants, ht⟩ := hp
    refine ⟨⟨first, constants ++ [c], ?_⟩, fun _ _ hd => (get?_push ht).mpr (.inl hd)⟩
    rw [ht, WidthTable.push_ofList]

/-- What has grown from a pool has so after one more constant. -/
theorem regular_add_of_grows {mid : ConstantPool} (hm : mid.Regular ∧ pool.Grows mid)
    (h : add c mid = .ok i pool') : pool'.Regular ∧ pool.Grows pool' := by
  obtain ⟨hp', hg⟩ := regular_add hm.1 h
  exact ⟨hp', hm.2.trans hg⟩

theorem faithful_add (hp : pool.Faithful) (h : add c pool = .ok i pool') :
    pool'.Faithful ∧ pool.Grows pool' ∧ pool'.get? i = some c := by
  rcases add_eq_ok h with ⟨hl, rfl⟩ | ⟨-, hx, rfl, rfl⟩
  · exact ⟨hp, Grows.refl _, hp.get_lookup hl⟩
  · obtain ⟨first, constants, ht⟩ := hp.regular
    have hn : (UInt16.ofNat pool.extent).toNat = pool.extent := by
      have hw : 0 < c.width := c.width_pos
      refine UInt16.toNat_ofNat_of_lt' ?_
      simp only [capacity, UInt16.size] at hx ⊢
      omega
    have hc : (ConstantPool.mk (pool.table.push c) (pool.indices.insert c
        ⟨UInt16.ofNat pool.extent⟩)).get? ⟨UInt16.ofNat pool.extent⟩ = some c :=
      (get?_push ht).mpr (.inr ⟨hn, rfl⟩)
    refine ⟨⟨⟨first, constants ++ [c], ?_⟩, hx, ?_, ?_⟩,
      fun _ _ hd => (get?_push ht).mpr (.inl hd), hc⟩
    · rw [ht, WidthTable.push_ofList]
    · intro d j hj
      rw [lookup, Std.HashMap.getElem?_insert] at hj
      split at hj
      · rename_i he
        cases hj
        rwa [← eq_of_beq he]
      · exact (get?_push ht).mpr (.inl (hp.get_lookup hj))
    · intro d j hd
      rw [lookup, Std.HashMap.getElem?_insert]
      split
      · exact ⟨_, rfl⟩
      · rename_i hne
        rcases (get?_push ht).mp hd with hd | ⟨-, rfl⟩
        · exact hp.lookup_get hd
        · exact absurd (beq_self_eq_true _) hne

/-- What has grown from a pool and is faithful is so after one more constant. -/
theorem faithful_add_of_grows {mid : ConstantPool} (hm : mid.Faithful ∧ pool.Grows mid)
    (h : add c mid = .ok i pool') : pool'.Faithful ∧ pool.Grows pool' := by
  obtain ⟨hp', hg, -⟩ := faithful_add hm.1 h
  exact ⟨hp', hm.2.trans hg⟩

theorem coherent_add (hp : pool.Coherent) (h : add c pool = .ok i pool') :
    pool'.Coherent ∧ pool.Grows pool' ∧ pool'.get? i = some c := by
  obtain ⟨hf, hg, hi⟩ := faithful_add hp.faithful h
  refine ⟨⟨?_, hf.extent, hf.get_lookup, hf.lookup_get⟩, hg, hi⟩
  obtain ⟨constants, ht⟩ := hp.table
  rcases add_eq_ok h with ⟨-, rfl⟩ | ⟨-, -, rfl, rfl⟩
  · exact ⟨constants, ht⟩
  · exact ⟨constants ++ [c], by rw [ht, WidthTable.push_ofList]⟩

theorem addText_eq_ok {text : String} (hp : pool.Coherent) (h : addText text pool = .ok i pool') :
    pool'.Coherent ∧ pool.Grows pool' ∧ pool'.text i = .ok text := by
  obtain ⟨hp', hg, hi⟩ := coherent_add hp h
  exact ⟨hp', hg, text_eq_ok.mpr hi⟩

theorem faithful_addText {text : String} (hp : pool.Faithful)
    (h : addText text pool = .ok i pool') :
    pool'.Faithful ∧ pool.Grows pool' ∧ pool'.text i = .ok text := by
  obtain ⟨hp', hg, hi⟩ := faithful_add hp h
  exact ⟨hp', hg, text_eq_ok.mpr hi⟩

/-- A text refers to nothing, so only for want of room is it not added. -/
theorem addText_outcome (text : String) (pool : ConstantPool) :
    (∃ i pool', addText text pool = .ok i pool') ∨
    (addText text pool = .error (.poolOverflow (.utf8 text) pool.extent) pool ∧
      pool.lookupText text = none ∧ capacity ≤ pool.extent) := by
  cases hl : pool.lookup (.utf8 text) with
  | some i => exact .inl ⟨i, pool, add_of_lookup hl⟩
  | none =>
    have ha := add_of_absent hl fun _ hm => absurd hm List.not_mem_nil
    split at ha
    · rename_i hx
      exact .inr ⟨ha, hl, Nat.le_of_lt_succ hx⟩
    · exact .inl ⟨_, _, ha⟩

theorem addTypeName_eq_ok {name : String} (hp : pool.Coherent)
    (h : addTypeName name pool = .ok i pool') : pool'.Coherent ∧ pool.Grows pool' := by
  obtain ⟨j, mid, hj, h⟩ := EStateM.bind_eq_ok.mp h
  obtain ⟨hm, hg, -⟩ := addText_eq_ok hp hj
  obtain ⟨hp', hg', -⟩ := coherent_add hm h
  exact ⟨hp', hg.trans hg'⟩

/-- There is always room for one more text, up to the capacity. -/
theorem addText_of_room (text : String) (h : pool.extent < capacity) :
    ∃ i pool', addText text pool = .ok i pool' ∧ pool'.extent ≤ pool.extent + 1 := by
  unfold addText add
  cases pool.lookup (.utf8 text) with
  | some i => exact ⟨i, pool, rfl, Nat.le_succ _⟩
  | none =>
    have hc : ¬ pool.extent + 1 > capacity := by omega
    exact ⟨_, _, if_neg hc, Nat.le_refl _⟩

end PoolM

namespace ConstantPool

/-- The pools that a program can get hold of. An addition that fails after some of what it needs
was added leaves the pool as it was after the last step that succeeded. -/
inductive Reachable : ConstantPool → Prop
  | empty : Reachable empty
  | ofTable {constants : List Constant} {pool : ConstantPool}
      (h : ofTable (WidthTable.ofList 1 constants) = .ok pool) : Reachable pool
  | add {c : Constant} {i : ConstantIndex} {pool pool' : ConstantPool} (hp : Reachable pool)
      (h : PoolM.add c pool = .ok i pool') : Reachable pool'

theorem Reachable.coherent (h : pool.Reachable) : pool.Coherent := by
  induction h with
  | empty => exact coherent_empty
  | ofTable h => exact coherent_ofTable h
  | add _ h ih => exact (PoolM.coherent_add ih h).1

/-- The pools that a program can get hold of, wherever the table of given constants begins. -/
inductive Obtained : ConstantPool → Prop
  | empty : Obtained empty
  | ofTable {first : Nat} {constants : List Constant} {pool : ConstantPool}
      (h : ofTable (WidthTable.ofList first constants) = .ok pool) : Obtained pool
  | add {c : Constant} {i : ConstantIndex} {pool pool' : ConstantPool} (hp : Obtained pool)
      (h : PoolM.add c pool = .ok i pool') : Obtained pool'

theorem Obtained.faithful (h : pool.Obtained) : pool.Faithful := by
  induction h with
  | empty => exact coherent_empty.faithful
  | ofTable h => exact faithful_ofTable h
  | add _ h ih => exact (PoolM.faithful_add ih h).1

end ConstantPool

end Classfile
