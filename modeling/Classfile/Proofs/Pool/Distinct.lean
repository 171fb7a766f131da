import Classfile.Proofs.Pool.Access
import Classfile.Proofs.Pool.Requests
import Mathlib.Data.List.Nodup

/-!
Pools that were grown from the empty one hold nothing twice, nor do those that were grown from a
table of different constants. Constants are compared with the indices in them, so equal texts have
one index, hence equal names of types and equal signatures, and hence equal members. What is looked
up by its texts is found just if it can be read back from the pool.
-/
namespace Classfile

open ConstantPool

variable {pool pool' : ConstantPool} {c : Constant} {i j k : ConstantIndex}
  {text name descriptor owner : String}

namespace ConstantPool

/-- No constant has two indices, wherever the table begins. -/
structure Unrepeated (pool : ConstantPool) : Prop where
  faithful : pool.Faithful
  unique : ∀ {i j c}, pool.get? i = some c → pool.get? j = some c → i = j

/-- No constant has two indices. -/
structure Distinct (pool : ConstantPool) : Prop where
  coherent : pool.Coherent
  unique : ∀ {i j c}, pool.get? i = some c → pool.get? j = some c → i = j

theorem Distinct.unrepeated (h : pool.Distinct) : pool.Unrepeated := ⟨h.coherent.faithful, h.unique⟩

theorem distinct_empty : empty.Distinct where
  coherent := coherent_empty
  unique := by
    intro i j c hi _
    obtain ⟨k, hk⟩ := coherent_empty.lookup_get hi
    simp [lookup, empty] at hk

theorem unrepeated_ofTable {first : Nat} {constants : List Constant} (hn : constants.Nodup)
    (h : ofTable (WidthTable.ofList first constants) = .ok pool) : pool.Unrepeated where
  faithful := faithful_ofTable h
  unique := by
    intro i j c hi hj
    have ht : pool.table = WidthTable.ofList first constants := by
      obtain ⟨-, hp, -⟩ := ofTable_eq_ok h
      rw [hp]
    have hn : ((Width.placed first constants).map (·.2)).Nodup := by rwa [Width.placed_map_snd]
    have hentry := List.inj_on_of_nodup_map hn ((get?_eq_some ht).mp hi) ((get?_eq_some ht).mp hj)
      rfl
    exact congrArg ConstantIndex.mk (UInt16.toNat_inj.mp (Prod.mk.inj hentry).1)

/-- A constant is found at an index if and only if it lies there. -/
theorem Unrepeated.lookup_iff (hp : pool.Unrepeated) (c : Constant) (i : ConstantIndex) :
    pool.lookup c = some i ↔ pool.get? i = some c := by
  constructor
  · exact hp.faithful.get_lookup
  · intro hi
    obtain ⟨j, hj⟩ := hp.faithful.lookup_get hi
    rwa [hp.unique hi (hp.faithful.get_lookup hj)]

theorem Distinct.lookup_iff (hp : pool.Distinct) (c : Constant) (i : ConstantIndex) :
    pool.lookup c = some i ↔ pool.get? i = some c :=
  hp.unrepeated.lookup_iff c i

theorem Unrepeated.add (hp : pool.Unrepeated) (h : PoolM.add c pool = .ok i pool') :
    pool'.Unrepeated := by
  refine ⟨(PoolM.faithful_add hp.faithful h).1, ?_⟩
  rcases PoolM.add_eq_ok h with ⟨-, rfl⟩ | ⟨hn, -, rfl, rfl⟩
  · exact hp.unique
  obtain ⟨first, constants, ht⟩ := hp.faithful.regular
  -- the map knew every constant of the table, so this one was not there
  have hnew : ∀ {j}, pool.get? j ≠ some c := by
    intro j hj
    obtain ⟨k, hk⟩ := hp.faithful.lookup_get hj
    rw [hn] at hk
    cases hk
  intro j k d hj hk
  rcases (PoolM.get?_push ht).mp hj with hold | ⟨hend, rfl⟩
  · rcases (PoolM.get?_push ht).mp hk with hold' | ⟨-, rfl⟩
    · exact hp.unique hold hold'
    · exact absurd hold hnew
  · rcases (PoolM.get?_push ht).mp hk with hold | ⟨hend', -⟩
    · exact absurd hold hnew
    · exact congrArg ConstantIndex.mk (UInt16.toNat_inj.mp (hend.trans hend'.symm))

theorem Distinct.add (hp : pool.Distinct) (h : PoolM.add c pool = .ok i pool') :
    pool'.Distinct ∧ pool.Grows pool' ∧ pool'.get? i = some c := by
  obtain ⟨hc, hg, hi⟩ := PoolM.coherent_add hp.coherent h
  exact ⟨⟨hc, (hp.unrepeated.add h).unique⟩, hg, hi⟩

theorem Distinct.run (hp : pool.Distinct) (requests : List Request) :
    (pool.run requests).Distinct :=
  run_invariant (fun hp h => (hp.add h).1) requests hp

/-! ### Looking up by texts -/

/-- The signature with these texts. -/
def signatureWith? (pool : ConstantPool) (name descriptor : String) : Option ConstantIndex := do
  pool.lookup (.nameAndType (← pool.lookupText name) (← pool.lookupText descriptor))

theorem lookupMethodRef_eq : pool.lookupMethodRef owner name descriptor =
    (pool.lookupTypeName owner).bind fun j => (pool.signatureWith? name descriptor).bind fun k =>
      pool.lookup (.methodRef false j k) <|> pool.lookup (.methodRef true j k) := by
  simp only [lookupMethodRef, signatureWith?, Option.bind_eq_bind, Option.bind_assoc]

/-- There is a method with these texts at the index. -/
def IsMethod (pool : ConstantPool) (ofInterface : Bool) (owner name descriptor : String)
    (i : ConstantIndex) : Prop :=
  (∃ j k, pool.get? i = some (.methodRef ofInterface j k)) ∧
    pool.member i = .ok (owner, name, descriptor)

/-- There is a field with these texts at the index. -/
def IsField (pool : ConstantPool) (owner name descriptor : String) (i : ConstantIndex) : Prop :=
  (∃ j k, pool.get? i = some (.fieldRef j k)) ∧ pool.member i = .ok (owner, name, descriptor)

/-- The texts of a member of one kind are those of its owner and of its signature. -/
theorem member_iff_of_joins {make : ConstantIndex → ConstantIndex → Constant}
    (hmake : ∀ j k j' k', Joins (make j k) j' k' ↔ j = j' ∧ k = k') :
    ((∃ j k, pool.get? i = some (make j k)) ∧ pool.member i = .ok (owner, name, descriptor)) ↔
      ∃ j k, pool.get? i = some (make j k) ∧ pool.typeName j = .ok owner ∧
        pool.signature k = .ok (name, descriptor) := by
  constructor
  · rintro ⟨⟨j, k, hi⟩, hm⟩
    obtain ⟨c, j', k', hc, hjoins, ho, hs⟩ := member_eq_ok.mp hm
    cases hi.symm.trans hc
    obtain ⟨rfl, rfl⟩ := (hmake _ _ _ _).mp hjoins
    exact ⟨j, k, hi, ho, hs⟩
  · rintro ⟨j, k, hi, ho, hs⟩
    exact ⟨⟨j, k, hi⟩, member_eq_ok.mpr ⟨_, j, k, hi, (hmake _ _ _ _).mpr ⟨rfl, rfl⟩, ho, hs⟩⟩

theorem isMethod_iff {ofInterface : Bool} : pool.IsMethod ofInterface owner name descriptor i ↔
    ∃ j k, pool.get? i = some (.methodRef ofInterface j k) ∧ pool.typeName j = .ok owner ∧
      pool.signature k = .ok (name, descriptor) :=
  member_iff_of_joins fun j k j' k' => by simp [Joins]

theorem isField_iff : pool.IsField owner name descriptor i ↔
    ∃ j k, pool.get? i = some (.fieldRef j k) ∧ pool.typeName j = .ok owner ∧
      pool.signature k = .ok (name, descriptor) :=
  member_iff_of_joins fun j k j' k' => by simp [Joins]

/-- A type is found at an index if and only if it has the name there. -/
theorem Unrepeated.lookupTypeName_iff (hp : pool.Unrepeated) :
    pool.lookupTypeName name = some i ↔ pool.typeName i = .ok name := by
  rw [typeName_eq_ok, lookupTypeName]
  simp only [Option.bind_eq_bind, Option.bind_eq_some_iff, lookupText, hp.lookup_iff]
  exact exists_congr fun _ => and_comm

namespace Distinct

variable (hp : pool.Distinct)
include hp

theorem lookupText_eq_some : pool.lookupText text = some i ↔ pool.get? i = some (.utf8 text) :=
  hp.lookup_iff _ _

theorem lookupTypeName_eq_some :
    pool.lookupTypeName name = some i ↔ pool.typeName i = .ok name :=
  hp.unrepeated.lookupTypeName_iff

theorem lookupString_eq_some :
    pool.lookupString text = some i ↔ pool.string i = .ok text := by
  rw [string_eq_ok, lookupString]
  simp only [Option.bind_eq_bind, Option.bind_eq_some_iff, hp.lookupText_eq_some, hp.lookup_iff]
  exact exists_congr fun _ => and_comm

theorem signatureWith?_eq_some :
    pool.signatureWith? name descriptor = some i ↔ pool.signature i = .ok (name, descriptor) := by
  rw [signature_eq_ok, signatureWith?]
  simp only [Option.bind_eq_bind, Option.bind_eq_some_iff, hp.lookupText_eq_some, hp.lookup_iff]
  constructor
  · rintro ⟨j, hj, k, hk, h⟩
    exact ⟨j, k, h, hj, hk⟩
  · rintro ⟨j, k, h, hj, hk⟩
    exact ⟨j, hj, k, hk, h⟩

theorem typeName_unique (hi : pool.typeName i = .ok name) (hj : pool.typeName j = .ok name) :
    i = j :=
  Option.some.inj
    ((hp.lookupTypeName_eq_some.mpr hi).symm.trans (hp.lookupTypeName_eq_some.mpr hj))

theorem signature_unique (hi : pool.signature i = .ok (name, descriptor))
    (hj : pool.signature j = .ok (name, descriptor)) : i = j :=
  Option.some.inj
    ((hp.signatureWith?_eq_some.mpr hi).symm.trans (hp.signatureWith?_eq_some.mpr hj))

/-- Owner and signature having one index each, there is one method of a class and one of an
interface. -/
theorem lookup_eq_some_iff_isMethod (hj : pool.typeName j = .ok owner)
    (hk : pool.signature k = .ok (name, descriptor)) {ofInterface : Bool} :
    pool.lookup (.methodRef ofInterface j k) = some i ↔
      pool.IsMethod ofInterface owner name descriptor i := by
  rw [hp.lookup_iff, isMethod_iff]
  constructor
  · intro hi
    exact ⟨j, k, hi, hj, hk⟩
  · rintro ⟨j', k', hi, ho, hs⟩
    rwa [hp.typeName_unique hj ho, hp.signature_unique hk hs]

/-- A method of a class is found, and one of an interface if there is none of a class. -/
theorem lookupMethodRef_eq_some : pool.lookupMethodRef owner name descriptor = some i ↔
    pool.IsMethod false owner name descriptor i ∨
      (pool.IsMethod true owner name descriptor i ∧
        ∀ j, ¬ pool.IsMethod false owner name descriptor j) := by
  rw [lookupMethodRef_eq]
  by_cases hparts : ∃ j k, pool.typeName j = .ok owner ∧ pool.signature k = .ok (name, descriptor)
  · obtain ⟨j, k, hj, hk⟩ := hparts
    rw [hp.lookupTypeName_eq_some.mpr hj, hp.signatureWith?_eq_some.mpr hk]
    simp only [← hp.lookup_eq_some_iff_isMethod hj hk, Option.bind_some]
    cases pool.lookup (.methodRef false j k) <;> simp
  · have hnone : ∀ ofInterface j, ¬ pool.IsMethod ofInterface owner name descriptor j := by
      intro ofInterface i h
      obtain ⟨j, k, -, hj, hk⟩ := isMethod_iff.mp h
      exact hparts ⟨j, k, hj, hk⟩
    simp only [hnone, false_and, or_false, iff_false]
    intro h
    obtain ⟨j, hj, h⟩ := Option.bind_eq_some_iff.mp h
    obtain ⟨k, hk, -⟩ := Option.bind_eq_some_iff.mp h
    exact hparts ⟨j, k, hp.lookupTypeName_eq_some.mp hj, hp.signatureWith?_eq_some.mp hk⟩

theorem lookupMethodRef_eq_none : pool.lookupMethodRef owner name descriptor = none ↔
    ∀ ofInterface i, ¬ pool.IsMethod ofInterface owner name descriptor i := by
  rw [Option.eq_none_iff_forall_ne_some]
  simp only [ne_eq, hp.lookupMethodRef_eq_some]
  constructor
  · intro h ofInterface i hi
    cases ofInterface with
    | false => exact h i (.inl hi)
    | true => exact h i (.inr ⟨hi, fun j hj => h j (.inl hj)⟩)
  · rintro h i (hi | ⟨hi, -⟩)
    · exact h false i hi
    · exact h true i hi

end Distinct

end ConstantPool

/-! ### Adding by texts -/

namespace PoolM

/-- What was added reads back at its index, at once and at any later time. Asked for again, it is
found at the same index, and nothing is added. -/
def Repeats (x : PoolM ConstantIndex) (Reads : ConstantPool → ConstantIndex → Prop)
    (pool : ConstantPool) : Prop :=
  ∀ i pool', x pool = .ok i pool' → ∀ requests : List Request,
    Reads (pool'.run requests) i ∧ x (pool'.run requests) = .ok i (pool'.run requests)

variable {x : PoolM ConstantIndex} {Reads : ConstantPool → ConstantIndex → Prop}

/-- What was added can be read, goes on to be read, and is found where it is read. -/
theorem repeats_of
    (hadd : ∀ i pool', x pool = .ok i pool' → pool'.Distinct ∧ Reads pool' i)
    (hgrows : ∀ {pool pool' : ConstantPool} {i}, pool.Grows pool' → Reads pool i → Reads pool' i)
    (hfound : ∀ {pool : ConstantPool} {i}, pool.Distinct → Reads pool i → x pool = .ok i pool) :
    Repeats x Reads pool := by
  intro i pool' h requests
  obtain ⟨hp', hi⟩ := hadd i pool' h
  have hlater := hgrows (hp'.coherent.grows_run requests) hi
  exact ⟨hlater, hfound (hp'.run requests) hlater⟩

theorem add_of_get? (hp : pool.Distinct) (h : pool.get? i = some c) : add c pool = .ok i pool :=
  add_of_lookup ((hp.lookup_iff c i).mpr h)

/-! What names one text, like a type or a string. -/

section

variable {make : ConstantIndex → Constant}

theorem distinct_addOver (hp : pool.Distinct)
    (h : (addText text >>= fun j => add (make j)) pool = .ok i pool') : pool'.Distinct ∧
      pool.Grows pool' ∧ ∃ j, pool'.get? i = some (make j) ∧ pool'.get? j = some (.utf8 text) := by
  obtain ⟨j, mid, hj, hi⟩ := EStateM.bind_eq_ok.mp h
  obtain ⟨hm, hg, hj⟩ := hp.add hj
  obtain ⟨hp', hg', hi⟩ := hm.add hi
  exact ⟨hp', hg.trans hg', j, hi, hg' hj⟩

theorem addOver_of_get? (hp : pool.Distinct) (hi : pool.get? i = some (make j))
    (hj : pool.get? j = some (.utf8 text)) :
    (addText text >>= fun j => add (make j)) pool = .ok i pool :=
  EStateM.bind_eq_ok.mpr ⟨j, pool, add_of_get? hp hj, add_of_get? hp hi⟩

end

theorem distinct_addTypeName (hp : pool.Distinct) (h : addTypeName name pool = .ok i pool') :
    pool'.Distinct ∧ pool.Grows pool' ∧ pool'.typeName i = .ok name := by
  obtain ⟨hp', hg, hi⟩ := distinct_addOver hp h
  exact ⟨hp', hg, typeName_eq_ok.mpr hi⟩

theorem addTypeName_of_typeName (hp : pool.Distinct) (h : pool.typeName i = .ok name) :
    addTypeName name pool = .ok i pool := by
  obtain ⟨j, hi, hj⟩ := typeName_eq_ok.mp h
  exact addOver_of_get? hp hi hj

theorem repeats_addTypeName (hp : pool.Distinct) (name : String) :
    Repeats (addTypeName name) (fun pool i => pool.typeName i = .ok name) pool := by
  refine repeats_of ?_ Grows.typeName addTypeName_of_typeName
  intro i pool' h
  obtain ⟨hp', -, hi⟩ := distinct_addTypeName hp h
  exact ⟨hp', hi⟩

theorem repeats_addString (hp : pool.Distinct) (text : String) :
    Repeats (addString text) (fun pool i => pool.string i = .ok text) pool := by
  refine repeats_of ?_ Grows.string ?_
  · intro i pool' h
    obtain ⟨hp', -, hi⟩ := distinct_addOver hp h
    exact ⟨hp', string_eq_ok.mpr hi⟩
  · intro pool i hp h
    obtain ⟨j, hi, hj⟩ := string_eq_ok.mp h
    exact addOver_of_get? hp hi hj

theorem distinct_addSignature (hp : pool.Distinct)
    (h : addSignature name descriptor pool = .ok i pool') :
    pool'.Distinct ∧ pool.Grows pool' ∧ pool'.signature i = .ok (name, descriptor) := by
  obtain ⟨j, first, hj, h⟩ := EStateM.bind_eq_ok.mp h
  obtain ⟨k, mid, hk, hi⟩ := EStateM.bind_eq_ok.mp h
  obtain ⟨hfirst, hg₁, hj⟩ := hp.add hj
  obtain ⟨hm, hg₂, hk⟩ := hfirst.add hk
  obtain ⟨hp', hg₃, hi⟩ := hm.add hi
  refine ⟨hp', hg₁.trans (hg₂.trans hg₃), ?_⟩
  exact signature_eq_ok.mpr ⟨j, k, hi, hg₃ (hg₂ hj), hg₃ hk⟩

theorem addSignature_of_signature (hp : pool.Distinct)
    (h : pool.signature i = .ok (name, descriptor)) :
    addSignature name descriptor pool = .ok i pool := by
  obtain ⟨j, k, hi, hj, hk⟩ := signature_eq_ok.mp h
  exact EStateM.bind_eq_ok.mpr ⟨j, pool, add_of_get? hp hj,
    EStateM.bind_eq_ok.mpr ⟨k, pool, add_of_get? hp hk, add_of_get? hp hi⟩⟩

/-- Fields and methods of any kind, each made from its owner and its signature. -/
theorem repeats_addMember {make : ConstantIndex → ConstantIndex → Constant} (hp : pool.Distinct)
    (owner name descriptor : String) :
    Repeats (do add (make (← addTypeName owner) (← addSignature name descriptor)))
      (fun pool i => ∃ j k, pool.get? i = some (make j k) ∧ pool.typeName j = .ok owner ∧
        pool.signature k = .ok (name, descriptor)) pool := by
  refine repeats_of ?_ ?_ ?_
  · intro i pool' h
    obtain ⟨j, first, hj, h⟩ := EStateM.bind_eq_ok.mp h
    obtain ⟨k, mid, hk, hi⟩ := EStateM.bind_eq_ok.mp h
    obtain ⟨hfirst, -, hj⟩ := distinct_addTypeName hp hj
    obtain ⟨hm, hg₂, hk⟩ := distinct_addSignature hfirst hk
    obtain ⟨hp', hg₃, hi⟩ := hm.add hi
    exact ⟨hp', j, k, hi, (hg₂.trans hg₃).typeName hj, hg₃.signature hk⟩
  · rintro pool pool' i hg ⟨j, k, hi, hj, hk⟩
    exact ⟨j, k, hg hi, hg.typeName hj, hg.signature hk⟩
  · rintro pool i hp ⟨j, k, hi, hj, hk⟩
    exact EStateM.bind_eq_ok.mpr ⟨j, pool, addTypeName_of_typeName hp hj,
      EStateM.bind_eq_ok.mpr ⟨k, pool, addSignature_of_signature hp hk, add_of_get? hp hi⟩⟩

theorem repeats_addFieldRef (hp : pool.Distinct) (owner name descriptor : String) :
    Repeats (addFieldRef owner name descriptor)
      (fun pool i => pool.IsField owner name descriptor i) pool := by
  simp only [isField_iff]
  exact repeats_addMember hp owner name descriptor

theorem repeats_addMethodRef (hp : pool.Distinct) (ofInterface : Bool)
    (owner name descriptor : String) :
    Repeats (addMethodRef ofInterface owner name descriptor)
      (fun pool i => pool.IsMethod ofInterface owner name descriptor i) pool := by
  simp only [isMethod_iff]
  exact repeats_addMember hp owner name descriptor

end PoolM

namespace ConstantPool

/-- Nothing is in the pool twice, be it compared as a constant or by its texts, and what is added
from now on reads back at one index for good. -/
structure Deduplicated (pool : ConstantPool) : Prop where
  index_unique : ∀ i j c, pool.get? i = some c → pool.get? j = some c → i = j
  lookupTypeName : ∀ name i, pool.lookupTypeName name = some i ↔ pool.typeName i = .ok name
  lookupString : ∀ text i, pool.lookupString text = some i ↔ pool.string i = .ok text
  /-- The method that is found is one of a class, unless there is only one of an interface. -/
  lookupMethodRef : ∀ owner name descriptor i, pool.lookupMethodRef owner name descriptor = some i ↔
    pool.IsMethod false owner name descriptor i ∨
      (pool.IsMethod true owner name descriptor i ∧
        ∀ j, ¬ pool.IsMethod false owner name descriptor j)
  lookupMethodRef_none : ∀ owner name descriptor,
    pool.lookupMethodRef owner name descriptor = none ↔
      ∀ ofInterface i, ¬ pool.IsMethod ofInterface owner name descriptor i
  addTypeName : ∀ name, PoolM.Repeats (PoolM.addTypeName name)
    (fun pool i => pool.typeName i = .ok name) pool
  addString : ∀ text, PoolM.Repeats (PoolM.addString text)
    (fun pool i => pool.string i = .ok text) pool
  addFieldRef : ∀ owner name descriptor, PoolM.Repeats (PoolM.addFieldRef owner name descriptor)
    (fun pool i => pool.IsField owner name descriptor i) pool
  addMethodRef : ∀ ofInterface owner name descriptor,
    PoolM.Repeats (PoolM.addMethodRef ofInterface owner name descriptor)
      (fun pool i => pool.IsMethod ofInterface owner name descriptor i) pool

theorem Distinct.deduplicated (hp : pool.Distinct) : pool.Deduplicated where
  index_unique _ _ _ := hp.unique
  lookupTypeName _ _ := hp.lookupTypeName_eq_some
  lookupString _ _ := hp.lookupString_eq_some
  lookupMethodRef _ _ _ _ := hp.lookupMethodRef_eq_some
  lookupMethodRef_none _ _ _ := hp.lookupMethodRef_eq_none
  addTypeName := PoolM.repeats_addTypeName hp
  addString := PoolM.repeats_addString hp
  addFieldRef := PoolM.repeats_addFieldRef hp
  addMethodRef := PoolM.repeats_addMethodRef hp

/-- After any requests to a new pool, granted or refused, nothing is in it twice. -/
theorem deduplicated_run (requests : List Request) : (empty.run requests).Deduplicated :=
  (distinct_empty.run requests).deduplicated

end ConstantPool

end Classfile
