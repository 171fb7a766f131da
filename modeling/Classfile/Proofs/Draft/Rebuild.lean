import Classfile.Draft.Rebuild
import Classfile.Proofs.Draft.Field
import Classfile.Proofs.Draft.Members
import Classfile.Proofs.Draft.Rebuilt

/-!
Rebuilding the members of a class. Methods and fields are rebuilt in the same way, which is stated
for both of them at once.
-/
namespace Classfile

open ConstantPool Member

variable {α : Type} {d e : ClassDraft} {owner : FlagOwner} {δ : Type} {a : α}
  {name descriptor : String}

namespace ClassM

theorem ask_eq_ok {question : ClassDraft → Except Fault α} :
    ask question d = .ok a e ↔ question d = .ok a ∧ d = e := by
  rw [ask]
  cases question d <;> simp

theorem onPool_eq_ok {x : PoolM α} :
    onPool x d = .ok a e ↔ ∃ pool, x d.pool = .ok a pool ∧ e = { d with pool } := by
  unfold onPool
  cases hx : x d.pool with
  | ok b pool =>
    simp only [EStateM.Result.ok.injEq, hx]
    constructor
    · rintro ⟨rfl, rfl⟩
      exact ⟨pool, ⟨rfl, rfl⟩, rfl⟩
    · rintro ⟨_, ⟨rfl, rfl⟩, rfl⟩
      exact ⟨rfl, rfl⟩
  | error e pool => simp [hx]

end ClassM

/-- Methods or fields: where a class keeps them, and how they become drafts and are built. -/
structure MemberKind (owner : FlagOwner) (δ : Type) where
  members : ClassDraft → List (Member owner)
  put : ClassDraft → List (Member owner) → ClassDraft
  wrap : ClassDraft → Member owner → Except Fault δ
  build : δ → PoolM (Member owner)
  missing : ClassDraft → String → String → Fault

namespace MemberKind

def methods : MemberKind .method MethodDraft where
  members := ClassDraft.methods
  put d methods := { d with methods }
  wrap d m := do MethodDraft.ofMethod d.pool (← d.name) m
  build := MethodDraft.build
  missing d name descriptor := .missing (.method d.nameOrUnnamed name descriptor)

def fields : MemberKind .field FieldDraft where
  members := ClassDraft.fields
  put d fields := { d with fields }
  wrap d := FieldDraft.ofField d.pool
  build := FieldDraft.build
  missing d name descriptor := .missing (.field d.nameOrUnnamed name descriptor)

variable (kind : MemberKind owner δ)

/-- The member with a name and a descriptor, and its position. -/
def find (d : ClassDraft) (name descriptor : String) : Except Fault (Nat × Member owner) :=
  match d.position? (kind.members d) name descriptor with
  | none => .error (kind.missing d name descriptor)
  | some position =>
    match (kind.members d)[position]? with
    | none => .error (kind.missing d name descriptor)
    | some m => .ok (position, m)

/-- Build the member again that has the name and the descriptor of a stored one. -/
def rebuild (m : Member owner) : ClassM δ := do
  let (name, descriptor) ← ClassM.ask fun d => d.signatureOf m
  let draft ← ClassM.ask fun d => do
    let (_, r) ← kind.find d name descriptor
    kind.wrap d r
  let (position, _) ← ClassM.ask fun d => kind.find d name descriptor
  let r ← ClassM.onPool (kind.build draft)
  modify fun d => kind.put d ((kind.members d).set position r)
  return draft

/-- Build each of the members again, by position. -/
def rebuildAt : List Nat → ClassM (List δ)
  | [] => return []
  | position :: rest => do
    let m? := (kind.members (← get))[position]?
    let drafts ← m?.toList.mapM kind.rebuild
    return drafts ++ (← rebuildAt rest)

theorem find_methods : methods.find = ClassDraft.findMethod := by
  funext d name descriptor
  unfold find ClassDraft.findMethod
  cases hp : d.position? d.methods name descriptor with
  | none => simp [methods, hp]
  | some p => cases hm : d.methods[p]? <;> simp [methods, hp, hm]

theorem find_fields : fields.find = ClassDraft.findField := by
  funext d name descriptor
  unfold find ClassDraft.findField
  cases hp : d.position? d.fields name descriptor with
  | none => simp [fields, hp]
  | some p => cases hf : d.fields[p]? <;> simp [fields, hp, hf]

theorem rebuild_methods : ClassM.rebuildMethod = methods.rebuild := by
  funext m
  unfold ClassM.rebuildMethod rebuild ClassM.replaceMethod
  simp only [discard, map_const, Function.comp_apply, map_bind, map_pure, bind_assoc, pure_bind,
    find_methods]
  rfl

theorem rebuild_fields : ClassM.rebuildField = fields.rebuild := by
  funext f
  unfold ClassM.rebuildField rebuild ClassM.replaceField
  simp only [discard, map_const, Function.comp_apply, map_bind, map_pure, bind_assoc, pure_bind,
    find_fields]
  rfl

theorem rebuildAt_methods : ClassM.rebuildMethods = methods.rebuildAt := by
  funext positions
  induction positions with
  | nil => rfl
  | cons n positions ih =>
    rw [ClassM.rebuildMethods, rebuildAt, ih, rebuild_methods]
    rfl

theorem rebuildAt_fields : ClassM.rebuildFields = fields.rebuildAt := by
  funext positions
  induction positions with
  | nil => rfl
  | cons n positions ih =>
    rw [ClassM.rebuildFields, rebuildAt, ih, rebuild_fields]
    rfl

/-- What is built from the draft of a member is another member, for which nothing is added to the
pool of the class. -/
def Renews (d : ClassDraft) (m r : Member owner) : Prop :=
  ∃ draft, kind.wrap d m = .ok draft ∧ kind.build draft d.pool = .ok r d.pool

/-- Members are kept apart from all else, and building one from the draft of a stored member gives
one that is like it and is built again from its own draft. -/
structure Lawful : Prop where
  members_put : ∀ d members, kind.members (kind.put d members) = members
  put_members : ∀ d, kind.put d (kind.members d) = d
  put_put : ∀ d members more, kind.put (kind.put d members) more = kind.put d more
  pool_put : ∀ d members, (kind.put d members).pool = d.pool
  wrap_put : ∀ d members, kind.wrap (kind.put d members) = kind.wrap d
  signature : ∀ {d m draft}, kind.wrap d m = .ok draft →
    ∃ signature, d.signatureOf m = .ok signature
  build : ∀ {d m draft r pool}, d.pool.Coherent → kind.wrap d m = .ok draft →
    kind.build draft d.pool = .ok r pool → pool = d.pool ∧ kind.Renews d r r ∧ Like d.pool r m

variable {kind}

theorem Lawful.renews (hk : kind.Lawful) (hp : d.pool.Coherent) {m r : Member owner}
    (h : kind.Renews d m r) : kind.Renews d r r ∧ Like d.pool r m := by
  obtain ⟨draft, hw, hb⟩ := h
  exact (hk.build hp hw hb).2

theorem Lawful.renews_put (hk : kind.Lawful) (members : List (Member owner)) :
    kind.Renews (kind.put d members) = kind.Renews d := by
  unfold Renews
  rw [hk.wrap_put, hk.pool_put]

end MemberKind

namespace ClassDraft

variable {m r : Member owner} {members : List (Member owner)} {p : Nat}

theorem signatureOf_eq_ok : d.signatureOf m = .ok (name, descriptor) ↔
    d.pool.text m.name = .ok name ∧ d.pool.text m.descriptor = .ok descriptor := by
  unfold signatureOf
  rw [Except.bind_eq_ok]
  constructor
  · rintro ⟨n, hn, h⟩
    obtain ⟨t, ht, h⟩ := Except.map_eq_ok.mp h
    cases h
    exact ⟨hn, ht⟩
  · rintro ⟨hn, hd⟩
    exact ⟨name, hn, Except.map_eq_ok.mpr ⟨descriptor, hd, rfl⟩⟩

theorem reads_iff {i : ConstantIndex} {text : String} :
    d.reads i text = true ↔ d.pool.text i = .ok text := by
  unfold reads
  cases d.pool.text i <;> simp

theorem position?_eq_some (hs : d.signatureOf m = .ok (name, descriptor)) :
    d.position? members name descriptor = some p ↔ ∃ r, First d.pool members m p r := by
  obtain ⟨hn, hd⟩ := signatureOf_eq_ok.mp hs
  have hlike : ∀ x : Member owner, (d.reads x.name name && d.reads x.descriptor descriptor) =
      true ↔ Like d.pool x m := by
    intro x
    rw [Bool.and_eq_true, reads_iff, reads_iff, Like, hn, hd]
  unfold position?
  rw [List.findIdx?_eq_some_iff_getElem]
  simp only [hlike]
  constructor
  · rintro ⟨hlt, hl, hb⟩
    refine ⟨members[p], List.getElem?_eq_getElem hlt, hl, fun k hk x hx => ?_⟩
    obtain ⟨-, rfl⟩ := List.getElem?_eq_some_iff.mp hx
    exact hb k hk
  · rintro ⟨r, hf⟩
    obtain ⟨hlt, rfl⟩ := List.getElem?_eq_some_iff.mp hf.found
    exact ⟨hlt, hf.like, fun k hk => hf.before k hk _ (List.getElem?_eq_getElem _)⟩

end ClassDraft

namespace MemberKind

variable {kind : MemberKind owner δ} {m r : Member owner} {p : Nat} {positions : List Nat}

theorem find_eq_ok (hs : d.signatureOf m = .ok (name, descriptor)) :
    kind.find d name descriptor = .ok (p, r) ↔ First d.pool (kind.members d) m p r := by
  unfold find
  constructor
  · intro h
    split at h
    · cases h
    · rename_i q hq
      obtain ⟨x, hf⟩ := (ClassDraft.position?_eq_some hs).mp hq
      rw [hf.found] at h
      cases h
      exact hf
  · intro hf
    rw [(ClassDraft.position?_eq_some hs).mpr ⟨r, hf⟩]
    simp only [hf.found]

/-- Rebuilding a member puts what is built in the place of the first member that is like it. -/
theorem rebuild_eq_ok (hk : kind.Lawful) (hp : d.pool.Coherent) :
    (∃ draft, kind.rebuild m d = .ok draft e) ↔ ∃ p r r', First d.pool (kind.members d) m p r ∧
      kind.Renews d r r' ∧ e = kind.put d ((kind.members d).set p r') := by
  constructor
  · rintro ⟨draft, h⟩
    obtain ⟨⟨name, descriptor⟩, _, ha, h⟩ := EStateM.bind_eq_ok.mp h
    obtain ⟨hs, rfl⟩ := ClassM.ask_eq_ok.mp ha
    obtain ⟨draft, _, ha, h⟩ := EStateM.bind_eq_ok.mp h
    obtain ⟨hw, rfl⟩ := ClassM.ask_eq_ok.mp ha
    obtain ⟨⟨q, x⟩, hq, hw⟩ := Except.bind_eq_ok.mp hw
    obtain ⟨⟨p, r⟩, _, ha, h⟩ := EStateM.bind_eq_ok.mp h
    obtain ⟨hr, rfl⟩ := ClassM.ask_eq_ok.mp ha
    rw [hq] at hr
    cases hr
    obtain ⟨r', _, ho, h⟩ := EStateM.bind_eq_ok.mp h
    obtain ⟨pool, hb, rfl⟩ := ClassM.onPool_eq_ok.mp ho
    obtain ⟨rfl, -⟩ := hk.build hp hw hb
    obtain ⟨_, _, hm, h⟩ := EStateM.bind_eq_ok.mp h
    cases hm
    obtain ⟨-, rfl⟩ := EStateM.pure_eq_ok.mp h
    exact ⟨q, x, r', (find_eq_ok hs).mp hq, ⟨draft, hw, hb⟩, rfl⟩
  · rintro ⟨p, r, r', hf, ⟨draft, hw, hb⟩, rfl⟩
    obtain ⟨⟨name, descriptor⟩, hs⟩ := hk.signature hw
    rw [ClassDraft.signatureOf_eq_ok, hf.like.1, hf.like.2, ← ClassDraft.signatureOf_eq_ok] at hs
    have hfind := (find_eq_ok hs).mpr hf
    refine ⟨draft, ?_⟩
    refine EStateM.bind_eq_ok.mpr ⟨_, d, ClassM.ask_eq_ok.mpr ⟨hs, rfl⟩, ?_⟩
    refine EStateM.bind_eq_ok.mpr ⟨draft, d, ClassM.ask_eq_ok.mpr ⟨?_, rfl⟩, ?_⟩
    · exact Except.bind_eq_ok.mpr ⟨_, hfind, hw⟩
    refine EStateM.bind_eq_ok.mpr ⟨_, d, ClassM.ask_eq_ok.mpr ⟨hfind, rfl⟩, ?_⟩
    exact EStateM.bind_eq_ok.mpr ⟨r', d, ClassM.onPool_eq_ok.mpr ⟨d.pool, hb, rfl⟩, rfl⟩

theorem rebuildAt_cons {n : Nat} {drafts : List δ} :
    kind.rebuildAt (n :: positions) d = .ok drafts e ↔ ∃ found mid more,
      ((kind.members d)[n]?.toList.mapM kind.rebuild) d = .ok found mid ∧
        kind.rebuildAt positions mid = .ok more e ∧ found ++ more = drafts := by
  constructor
  · intro h
    obtain ⟨_, _, hg, h⟩ := EStateM.bind_eq_ok.mp h
    cases hg
    obtain ⟨found, mid, hf, h⟩ := EStateM.bind_eq_ok.mp h
    obtain ⟨more, h, he⟩ := EStateM.map_eq_ok.mp h
    exact ⟨found, mid, more, hf, h, he⟩
  · rintro ⟨found, mid, more, hf, h, he⟩
    exact EStateM.bind_eq_ok.mpr ⟨d, d, rfl, EStateM.bind_eq_ok.mpr
      ⟨found, mid, hf, EStateM.map_eq_ok.mpr ⟨more, h, he⟩⟩⟩

theorem rebuildAt_cons_none {n : Nat} (hn : (kind.members d)[n]? = none) :
    (∃ drafts, kind.rebuildAt (n :: positions) d = .ok drafts e) ↔
      ∃ drafts, kind.rebuildAt positions d = .ok drafts e := by
  simp only [rebuildAt_cons, hn]
  constructor
  · rintro ⟨_, _, _, more, hf, h, -⟩
    obtain ⟨-, rfl⟩ := EStateM.pure_eq_ok.mp hf
    exact ⟨more, h⟩
  · rintro ⟨more, h⟩
    exact ⟨_, [], d, more, rfl, h, rfl⟩

theorem rebuildAt_cons_some {n : Nat} (hm : (kind.members d)[n]? = some m) :
    (∃ drafts, kind.rebuildAt (n :: positions) d = .ok drafts e) ↔ ∃ mid,
      (∃ draft, kind.rebuild m d = .ok draft mid) ∧
        ∃ drafts, kind.rebuildAt positions mid = .ok drafts e := by
  simp only [rebuildAt_cons, hm, Option.toList_some, List.mapM_cons, List.mapM_nil, pure_bind]
  constructor
  · rintro ⟨_, _, mid, more, hf, h, -⟩
    obtain ⟨draft, hr, -⟩ := EStateM.map_eq_ok.mp hf
    exact ⟨mid, ⟨draft, hr⟩, more, h⟩
  · rintro ⟨mid, ⟨draft, hr⟩, more, h⟩
    exact ⟨_, [draft], mid, more, EStateM.map_eq_ok.mpr ⟨draft, hr, rfl⟩, h, rfl⟩

/-- Rebuilding members one after another is a pass over them. -/
theorem rebuildAt_eq_ok (hk : kind.Lawful) (hp : d.pool.Coherent) :
    (∃ drafts, kind.rebuildAt positions d = .ok drafts e) ↔ ∃ members,
      Pass d.pool (kind.Renews d) positions (kind.members d) members ∧
        e = kind.put d members := by
  induction positions generalizing d with
  | nil =>
    constructor
    · rintro ⟨drafts, h⟩
      obtain ⟨-, rfl⟩ := EStateM.pure_eq_ok.mp h
      exact ⟨_, .done, (hk.put_members d).symm⟩
    · rintro ⟨members, h, rfl⟩
      cases h
      rw [hk.put_members]
      exact ⟨[], rfl⟩
  | cons n positions ih =>
    have hput : ∀ members, (kind.put d members).pool.Coherent := fun members => by
      rwa [hk.pool_put]
    have ih' := fun members => ih (hput members)
    simp only [hk.pool_put, hk.renews_put, hk.members_put, hk.put_put] at ih'
    cases hm : (kind.members d)[n]? with
    | none =>
      rw [rebuildAt_cons_none hm, ih hp]
      constructor
      · rintro ⟨members, h, rfl⟩
        exact ⟨members, .skip hm h, rfl⟩
      · rintro ⟨members, h, rfl⟩
        cases h with
        | skip _ h => exact ⟨members, h, rfl⟩
        | replace hm' => simp [hm] at hm'
    | some m =>
      rw [rebuildAt_cons_some hm]
      simp only [rebuild_eq_ok hk hp]
      constructor
      · rintro ⟨_, ⟨p, r, r', hf, hr, rfl⟩, h⟩
        obtain ⟨members, hpass, rfl⟩ := (ih' _).mp h
        exact ⟨members, .replace hm hf hr hpass, rfl⟩
      · rintro ⟨members, h, rfl⟩
        cases h with
        | skip hn => simp [hm] at hn
        | replace hm' hf hr h =>
          rw [hm] at hm'
          cases hm'
          exact ⟨_, ⟨_, _, _, hf, hr, rfl⟩, (ih' _).mpr ⟨members, h, rfl⟩⟩

end MemberKind

end Classfile
