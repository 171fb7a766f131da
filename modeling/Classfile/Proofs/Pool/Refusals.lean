import Classfile.Attribute.Payload
import Classfile.Proofs.Pool.Requests

/-!
Requests to a pool that fail. A request that needs several constants adds them one after another. If
one of them cannot be added, those before it stay, and nothing else of the pool changes.
-/
namespace Classfile

open ConstantPool

variable {α β : Type} {pool pool' mid : ConstantPool} {c d : Constant} {i j : ConstantIndex}
  {e : Fault} {requests more : List ConstantPool.Request}

namespace ConstantPool

/-- The request as a computation, without the answer to it. -/
def Request.perform : Request → PoolM Unit
  | .constant c => discard (PoolM.add c)
  | .text t => discard (PoolM.addText t)
  | .string t => discard (PoolM.addString t)
  | .typeName name => discard (PoolM.addTypeName name)
  | .signature name descriptor => discard (PoolM.addSignature name descriptor)
  | .fieldRef owner name descriptor => discard (PoolM.addFieldRef owner name descriptor)
  | .methodRef ofInterface owner name descriptor =>
    discard (PoolM.addMethodRef ofInterface owner name descriptor)
  | .methodType descriptor => discard (PoolM.addMethodType descriptor)
  | .methodHandle kind member => discard (PoolM.addMethodHandle kind member)
  | .invokeDynamic bootstrap name descriptor =>
    discard (PoolM.addInvokeDynamic bootstrap name descriptor)
  | @Request.attributeOf _ _ payload => discard (PoolM.addAttribute payload)

/-- What has to be in the pool before the constant that is asked for, in the order in which it is
added. Each of these only needs those before it. -/
def Request.stages : Request → List Request
  | .constant _ | .text _ | .methodHandle _ _ => []
  | .string t => [.text t]
  | .typeName name => [.text name]
  | .signature name descriptor => [.text name, .text descriptor]
  | .fieldRef owner name descriptor | .methodRef _ owner name descriptor =>
    [.text owner, .typeName owner, .text name, .text descriptor, .signature name descriptor]
  | .methodType descriptor => [.text descriptor]
  | .invokeDynamic _ name descriptor =>
    [.text name, .text descriptor, .signature name descriptor]
  | @Request.attributeOf α _ _ => [.text (Payload.name α)]

/-- The requests are granted one after another, from the first pool to the second one. -/
inductive Grants : ConstantPool → List Request → ConstantPool → Prop
  | done {pool : ConstantPool} : Grants pool [] pool
  | step {pool mid pool' : ConstantPool} {r : Request} {requests : List Request}
      (h : r.perform pool = .ok () mid) (hs : Grants mid requests pool') :
      Grants pool (r :: requests) pool'

theorem Grants.append (h : Grants pool requests mid) (h' : Grants mid more pool') :
    Grants pool (requests ++ more) pool' := by
  induction h with
  | done => exact h'
  | step h _ ih => exact .step h (ih h')

theorem Grants.single {r : Request} (h : r.perform pool = .ok () pool') :
    Grants pool [r] pool' := .step h .done

/-- One of the requests is refused, which changes nothing, after those before it were granted. -/
inductive Refused : ConstantPool → List Request → Fault → ConstantPool → Prop
  | here {pool : ConstantPool} {r : Request} {requests : List Request} {e : Fault}
      (h : r.perform pool = .error e pool) : Refused pool (r :: requests) e pool
  | later {pool mid pool' : ConstantPool} {r : Request} {requests : List Request} {e : Fault}
      (h : r.perform pool = .ok () mid) (hs : Refused mid requests e pool') :
      Refused pool (r :: requests) e pool'

theorem Refused.mono (h : Refused pool requests e pool') :
    Refused pool (requests ++ more) e pool' := by
  induction h with
  | here h => exact .here h
  | later h _ ih => exact .later h ih

theorem Refused.behind (h : Refused mid more e pool') (hg : Grants pool requests mid) :
    Refused pool (requests ++ more) e pool' := by
  induction hg with
  | done => exact h
  | step hr _ ih => exact .later hr (ih h)

theorem Refused.granted (h : Refused pool requests e pool') :
    ∃ done rest, requests = done ++ rest ∧ Grants pool done pool' := by
  induction h with
  | here => exact ⟨[], _, rfl, .done⟩
  | later h _ ih =>
    obtain ⟨done, rest, rfl, hg⟩ := ih
    exact ⟨_ :: done, rest, rfl, .step h hg⟩

/-- Requests that find everything in the pool leave it as it is. -/
theorem Grants.eq_of_kept (h : Grants pool requests pool')
    (hk : ∀ r ∈ requests, r.perform pool = .ok () pool) : pool' = pool := by
  induction h with
  | done => rfl
  | step h _ ih =>
    obtain ⟨hr, hk⟩ := List.forall_mem_cons.mp hk
    rw [hr] at h
    cases h
    exact ih hk

end ConstantPool

namespace PoolM

variable {x : PoolM α}

/-- The computation does no more than the requests, one after another: it is granted when they are,
and refused when one of them is. -/
structure Follows (pool : ConstantPool) (x : PoolM α) (requests : List Request) : Prop where
  grants : ∀ ⦃a pool'⦄, x pool = .ok a pool' → Grants pool requests pool'
  refused : ∀ ⦃e pool'⦄, x pool = .error e pool' → Refused pool requests e pool'

/-- When the computation fails, one of the requests is refused, or they are all granted. -/
def Stops (pool : ConstantPool) (x : PoolM α) (requests : List Request) : Prop :=
  ∀ ⦃e pool'⦄, x pool = .error e pool' →
    Refused pool requests e pool' ∨ Grants pool requests pool'

theorem Follows.bind {f : α → PoolM β} (hx : Follows pool x requests)
    (hf : ∀ a mid, x pool = .ok a mid → Follows mid (f a) more) :
    Follows pool (x >>= f) (requests ++ more) where
  grants b pool' h := by
    obtain ⟨a, mid, hxa, h⟩ := EStateM.bind_eq_ok.mp h
    exact (hx.grants hxa).append ((hf a mid hxa).grants h)
  refused e pool' h := by
    rcases EStateM.bind_eq_error.mp h with h | ⟨a, mid, hxa, h⟩
    · exact (hx.refused h).mono
    · exact ((hf a mid hxa).refused h).behind (hx.grants hxa)

theorem Follows.stops_bind {f : α → PoolM β} (hx : Follows pool x requests)
    (hf : ∀ a mid, x pool = .ok a mid → Stops mid (f a) more) :
    Stops pool (x >>= f) (requests ++ more) := by
  intro e pool' h
  rcases EStateM.bind_eq_error.mp h with h | ⟨a, mid, hxa, h⟩
  · exact .inl (hx.refused h).mono
  · have hg := hx.grants hxa
    exact (hf a mid hxa h).imp (fun h => h.behind hg) hg.append

theorem stops_of_unchanged (h : ∀ e pool', x pool = .error e pool' → pool' = pool) :
    Stops pool x [] := by
  intro e pool' he
  rw [h e pool' he]
  exact .inr .done

theorem stops_add : Stops pool (add c) [] := stops_of_unchanged fun _ _ => add_eq_error

/-- The last step of a computation changes nothing when it fails. -/
theorem Follows.last {f : α → PoolM β} (hx : Follows pool x requests)
    (hf : ∀ a mid, Stops mid (f a) []) : Stops pool (x >>= f) requests := by
  have h : Stops pool (x >>= f) (requests ++ []) := hx.stops_bind fun a mid _ => hf a mid
  rwa [List.append_nil] at h

/-- A constant that is added as the request adds it, whose other steps find what they need. -/
theorem follows_add {r : Request} (h : r.perform pool = discard (add c) pool) :
    Follows pool (add c) [r] where
  grants i pool' ha := .single (h.trans (EStateM.discard_eq_ok.mpr ⟨i, ha⟩))
  refused e pool' ha := by
    cases add_eq_error ha
    exact .here (h.trans (EStateM.discard_eq_error.mpr ha))

theorem lookup_of_add (h : add c pool = .ok i pool') : pool'.lookup c = some i := by
  rcases add_eq_ok h with ⟨hl, rfl⟩ | ⟨-, -, -, rfl⟩
  · exact hl
  · exact Std.HashMap.getElem?_insert_self

theorem lookup_add (hl : pool.lookup c = some i) (h : add d pool = .ok j pool') :
    pool'.lookup c = some i := by
  rcases add_eq_ok h with ⟨-, rfl⟩ | ⟨hn, -, -, rfl⟩
  · exact hl
  · have hne : ¬ (d == c) = true := by
      intro he
      rw [eq_of_beq he, hl] at hn
      cases hn
    rw [ConstantPool.lookup, Std.HashMap.getElem?_insert, if_neg hne]
    exact hl

theorem follows_addText (text : String) : Follows pool (addText text) [.text text] :=
  follows_add rfl

/-- What a computation does that finds its first part in the pool. -/
theorem discard_bind_of_ok {f : α → PoolM β} {a : α} (h : x pool = .ok a pool) :
    (discard (x >>= f) : PoolM Unit) pool = discard (f a) pool := by
  change EStateM.map _ (EStateM.bind x f) pool = EStateM.map _ (f a) pool
  rw [EStateM.map, EStateM.map, EStateM.bind, h]

/-- With its name in the pool, a type name is a single constant. -/
theorem follows_addTypeName (name : String) :
    Follows pool (addTypeName name) [.text name, .typeName name] :=
  (follows_addText name).bind fun _ _ hi =>
    follows_add (discard_bind_of_ok (add_of_lookup (lookup_of_add hi)))

/-- With both texts in the pool, a signature is a single constant. -/
theorem follows_addSignature (name descriptor : String) : Follows pool
    (addSignature name descriptor) [.text name, .text descriptor, .signature name descriptor] := by
  refine (follows_addText name).bind fun i first hi => ?_
  refine (follows_addText descriptor).bind fun j mid hj => follows_add ?_
  have hi' : add (.utf8 name) mid = .ok i mid := add_of_lookup (lookup_add (lookup_of_add hi) hj)
  have hj' : add (.utf8 descriptor) mid = .ok j mid := add_of_lookup (lookup_of_add hj)
  exact (discard_bind_of_ok hi').trans (discard_bind_of_ok hj')

/-- Fields and methods are added in the same way. -/
theorem stops_addMember {make : ConstantIndex → ConstantIndex → Constant}
    (owner name descriptor : String) :
    Stops pool (do add (make (← addTypeName owner) (← addSignature name descriptor)))
      [.text owner, .typeName owner, .text name, .text descriptor, .signature name descriptor] :=
  (follows_addTypeName owner).stops_bind fun _ _ _ =>
    (follows_addSignature name descriptor).last fun _ _ => stops_add

theorem stops_addMethodHandle (kind : HandleKind) (member : ConstantIndex) :
    Stops pool (addMethodHandle kind member) [] := by
  refine stops_of_unchanged fun e pool' h => ?_
  rcases EStateM.bind_eq_error.mp h with h | ⟨_, mid, hq, h⟩
  · exact (ask_eq_error.mp (EStateM.discard_eq_error.mp h)).2.symm
  · obtain ⟨_, hq⟩ := EStateM.discard_eq_ok.mp hq
    rw [add_eq_error h, (ask_eq_ok.mp hq).2]

theorem stops_addAttribute [Payload α] (payload : α) :
    Stops pool (addAttribute payload) [.text (Payload.name α)] := by
  refine (follows_addText _).last fun name mid => stops_of_unchanged fun e pool' h => ?_
  cases hw : Payload.write payload with
  | ok info =>
    rw [hw] at h
    cases h
  | error cause =>
    rw [hw] at h
    cases h
    rfl

theorem stops_perform (r : Request) : Stops pool r.perform r.stages := by
  intro e pool' h
  cases r with
  | constant c => exact stops_add (EStateM.discard_eq_error.mp h)
  | text t => exact stops_add (EStateM.discard_eq_error.mp h)
  | string t =>
    exact (follows_addText t).last (fun _ _ => stops_add) (EStateM.discard_eq_error.mp h)
  | typeName name =>
    exact (follows_addText name).last (fun _ _ => stops_add) (EStateM.discard_eq_error.mp h)
  | signature name descriptor =>
    refine (follows_addText name).stops_bind (fun _ _ _ => ?_) (EStateM.discard_eq_error.mp h)
    exact (follows_addText descriptor).last fun _ _ => stops_add
  | fieldRef owner name descriptor =>
    exact stops_addMember owner name descriptor (EStateM.discard_eq_error.mp h)
  | methodRef ofInterface owner name descriptor =>
    exact stops_addMember owner name descriptor (EStateM.discard_eq_error.mp h)
  | methodType descriptor =>
    exact (follows_addText descriptor).last (fun _ _ => stops_add) (EStateM.discard_eq_error.mp h)
  | methodHandle kind member =>
    exact stops_addMethodHandle kind member (EStateM.discard_eq_error.mp h)
  | invokeDynamic bootstrap name descriptor =>
    exact (follows_addSignature name descriptor).last (fun _ _ => stops_add)
      (EStateM.discard_eq_error.mp h)
  | attributeOf payload => exact stops_addAttribute payload (EStateM.discard_eq_error.mp h)

end PoolM

namespace ConstantPool

theorem after_eq (r : Request) : pool.after r = r.perform.left pool := by
  cases r <;> exact EStateM.left_discard.symm

/-- The constants of the first pool, and more behind them, none of which was there. Any constant but
these is looked up as before. -/
structure Extends (pool pool' : ConstantPool) (more : List (ConstantIndex × Constant)) : Prop where
  toList : pool'.toList = pool.toList ++ more
  extent : pool'.extent = pool.extent + Width.total (more.map (·.2))
  fresh : ∀ c ∈ more.map (·.2), pool.lookup c = none
  lookup : ∀ c, c ∉ more.map (·.2) → pool'.lookup c = pool.lookup c

theorem extends_self (pool : ConstantPool) : pool.Extends pool [] :=
  ⟨(List.append_nil _).symm, rfl, nofun, fun _ _ => rfl⟩

theorem Extends.add {new : List (ConstantIndex × Constant)} (h : pool.Extends mid new)
    (ha : PoolM.add c mid = .ok i pool') : ∃ new, pool.Extends pool' new := by
  rcases PoolM.add_eq_ok ha with ⟨-, rfl⟩ | ⟨hn, -, rfl, rfl⟩
  · exact ⟨new, h⟩
  · have hc : pool.lookup c = none := by
      by_cases hm : c ∈ new.map (·.2)
      · exact h.fresh c hm
      · exact (h.lookup c hm).symm.trans hn
    refine ⟨new ++ [(⟨UInt16.ofNat mid.extent⟩, c)], ?_, ?_, ?_, ?_⟩
    · rw [toList_push, h.toList, List.append_assoc]
    · change mid.extent + c.width = _
      rw [h.extent, List.map_append, Width.total_append, Nat.add_assoc]
      rfl
    · intro d hd
      rw [List.map_append, List.mem_append] at hd
      rcases hd with hd | hd
      · exact h.fresh d hd
      · cases List.mem_singleton.mp hd
        exact hc
    · intro d hd
      rw [List.map_append, List.mem_append, not_or] at hd
      have hne : ¬ (c == d) = true := fun he =>
        hd.2 (List.mem_singleton.mpr (eq_of_beq he).symm)
      rw [ConstantPool.lookup, Std.HashMap.getElem?_insert, if_neg hne]
      exact h.lookup d hd.1

theorem exists_extends_of_grants (h : Grants pool requests pool') :
    ∃ new, pool.Extends pool' new := by
  suffices hall : ∀ {start : ConstantPool} {new}, start.Extends pool new →
      ∃ new, start.Extends pool' new from hall (extends_self pool)
  induction h with
  | done => exact fun h => ⟨_, h⟩
  | @step pool mid _ r _ hr _ ih =>
    intro start new h
    have hm : mid = pool.after r := by rw [after_eq, EStateM.left, hr]
    obtain ⟨new, h⟩ : ∃ new, start.Extends mid new := by
      rw [hm]
      refine after_invariant (P := fun pool => ∃ new, start.Extends pool new) ?_ r ⟨new, h⟩
      intro pool c i pool' hn ha
      obtain ⟨new, hn⟩ := hn
      exact hn.add ha
    exact ih h

/-- A request that fails does so because one of its stages is refused, or after all of them were
granted. What was granted stays, and nothing else of the pool changes. So it stays as it was when
the stages find everything in it, or when there are none. -/
theorem stages_of_refused {r : Request} (h : r.perform pool = .error e pool') :
    (Refused pool r.stages e pool' ∨ Grants pool r.stages pool') ∧
    (∃ new, pool.Extends pool' new) ∧
    ((∀ s ∈ r.stages, s.perform pool = .ok () pool) → pool' = pool) := by
  have hr := PoolM.stops_perform r h
  obtain ⟨done, rest, hs, hg⟩ : ∃ done rest, r.stages = done ++ rest ∧ Grants pool done pool' :=
    hr.elim Refused.granted fun hg => ⟨r.stages, [], (List.append_nil _).symm, hg⟩
  refine ⟨hr, exists_extends_of_grants hg, fun hk => ?_⟩
  exact hg.eq_of_kept fun s hm => hk s (hs ▸ List.mem_append_left _ hm)

theorem write_tooMany {types : List ConstantIndex} (h : 65535 < types.length) :
    Payload.write (Exceptions.mk types) = .error .tooManyElements := by
  change Writer.counted _ types = _
  rw [Writer.counted, if_pos h]
  rfl

/-- More exceptions than an attribute can hold. The name of the attribute is added nevertheless. -/
theorem stages_of_refused_tooMany : ∃ pool', (Request.attributeOf (Exceptions.mk
      (List.replicate 65536 ⟨1⟩))).perform empty = .error (.format .tooManyElements) pool' ∧
    Grants empty [.text "Exceptions"] pool' ∧ pool'.extent = 2 := by
  obtain ⟨mid, ha, hx⟩ : ∃ mid, PoolM.addText "Exceptions" empty = .ok ⟨1⟩ mid ∧
      mid.extent = 2 := by
    have hl : empty.lookup (.utf8 "Exceptions") = none := Std.HashMap.getElem?_empty
    have ha := PoolM.add_of_absent hl nofun
    rw [if_neg (by decide)] at ha
    exact ⟨_, ha, rfl⟩
  have hl : 65535 < (List.replicate 65536 (ConstantIndex.mk 1)).length := by
    rw [List.length_replicate]
    decide
  have h : (Request.attributeOf (Exceptions.mk (List.replicate 65536 ⟨1⟩))).perform empty =
      .error (.format .tooManyElements) mid := by
    refine EStateM.discard_eq_error.mpr (EStateM.bind_eq_error.mpr (.inr ⟨_, _, ha, ?_⟩))
    rw [write_tooMany hl]
    rfl
  refine ⟨mid, h, (stages_of_refused h).1.resolve_left fun hr => ?_, hx⟩
  cases hr with
  | here hn => cases (EStateM.discard_eq_ok.mpr ⟨_, ha⟩).symm.trans hn
  | later _ hn => cases hn

/-- Constants that leave two slots but one free. -/
def almostFull : List Constant :=
  (List.range 32766).map (fun n => .long (Int64.ofNat n)) ++ [.integer 1]

theorem total_almostFull : Width.total almostFull = 65533 := by
  have hl : Width.total ((List.range 32766).map fun n => Constant.long (Int64.ofNat n)) =
      32766 * 2 := by
    have hw : ∀ c ∈ (List.range 32766).map fun n => Constant.long (Int64.ofNat n),
        Width.width c = 2 := by
      intro c hc
      obtain ⟨n, -, rfl⟩ := List.mem_map.mp hc
      rfl
    rw [Width.total_eq_mul hw, List.length_map, List.length_range]
  rw [almostFull, Width.total_append, hl]
  rfl

theorem number_of_mem_almostFull (h : c ∈ almostFull) :
    c.references = [] ∧ (∀ t, c ≠ .utf8 t) ∧ ∀ t, c ≠ .string t := by
  rcases List.mem_append.mp h with h | h
  · obtain ⟨n, -, rfl⟩ := List.mem_map.mp h
    exact ⟨rfl, nofun, nofun⟩
  · cases List.mem_singleton.mp h
    exact ⟨rfl, nofun, nofun⟩

/-- A pool of these constants has one slot left, and no others can be found in it. -/
theorem exists_almostFull : ∃ pool, ofTable (WidthTable.ofList 1 almostFull) = .ok pool ∧
    pool.Coherent ∧ pool.extent = 65534 ∧ ∀ c ∉ almostFull, pool.lookup c = none := by
  have hfit : 1 + Width.total almostFull ≤ capacity := by
    rw [total_almostFull, capacity]
    omega
  obtain ⟨pool, hs⟩ := exists_ofTable hfit fun c hc => (number_of_mem_almostFull hc).1
  have ht : pool.table = WidthTable.ofList 1 almostFull := by rw [(ofTable_eq_ok hs).2.1]
  refine ⟨pool, hs, coherent_ofTable hs, ?_, fun c hn => ?_⟩
  · rw [ConstantPool.extent, ht, WidthTable.ofList_extent, total_almostFull]
  · rw [lookup_ofTable hs, Option.map_eq_none_iff]
    refine List.find?_eq_none.mpr fun entry he hd => hn ?_
    rw [← toList_map_snd ht, ← of_decide_eq_true hd]
    exact List.mem_map_of_mem he

/-- A string that is asked for when only its text has room. The request fails, but the text stays:
the pool has one slot more than before, and the text is found. -/
theorem refused_string_grows : ∃ pool pool',
    ofTable (WidthTable.ofList 1 almostFull) = .ok pool ∧
    (Request.string "x").perform pool = .error (.poolOverflow (.string ⟨65534⟩) 65535) pool' ∧
    pool.extent = 65534 ∧ pool'.extent = 65535 ∧
    pool.lookupText "x" = none ∧ pool'.lookupText "x" = some ⟨65534⟩ := by
  obtain ⟨pool, hs, hp, hx, hnone⟩ := exists_almostFull
  have htext : pool.lookup (.utf8 "x") = none :=
    hnone _ fun hm => (number_of_mem_almostFull hm).2.1 "x" rfl
  have hstring : pool.lookup (.string ⟨65534⟩) = none :=
    hnone _ fun hm => (number_of_mem_almostFull hm).2.2 ⟨65534⟩ rfl
  obtain ⟨pool', ha, hx', hl'⟩ : ∃ pool', PoolM.addText "x" pool = .ok ⟨65534⟩ pool' ∧
      pool'.extent = 65535 ∧ pool'.lookup (.string ⟨65534⟩) = none := by
    have ha := PoolM.add_of_absent htext fun _ hm => absurd hm List.not_mem_nil
    have hroom : ¬ pool.extent + (Constant.utf8 "x").width > capacity := by
      have hw : (Constant.utf8 "x").width = 1 := rfl
      rw [hx, hw, capacity]
      omega
    rw [if_neg hroom, hx] at ha
    refine ⟨_, ha, ?_, ?_⟩
    · change pool.extent + 1 = 65535
      rw [hx]
    · rw [ConstantPool.lookup, Std.HashMap.getElem?_insert]
      exact hstring
  have htext' := PoolM.lookup_of_add ha
  have hrefused : PoolM.add (.string ⟨65534⟩) pool' =
      .error (.poolOverflow (.string ⟨65534⟩) 65535) pool' := by
    have hr := (PoolM.coherent_add hp ha).2.2
    rw [PoolM.add_of_absent hl' (by simp [Constant.references, hr]), hx']
    rfl
  refine ⟨pool, pool', hs, EStateM.discard_eq_error.mpr ?_, hx, hx', htext, htext'⟩
  exact EStateM.bind_eq_error.mpr (.inr ⟨_, _, ha, hrefused⟩)

end ConstantPool

end Classfile
