import Classfile.Proofs.Code.Reencoding
import Classfile.Proofs.Draft.Removal
import Classfile.Proofs.Draft.Steady
import Classfile.Proofs.Draft.Wrapping

/-!
The tables of a method while its instructions are edited. Lines and handlers always begin at
instructions that are there. A range that is in order when it is added stays in order, whatever is
put into it and taken out of it, until nothing is left of it. Nobody checks that a range is in
order, though, and one that is not can be left with an instruction that has gone.
-/
namespace Classfile

open InstructionSeq ConstantPool

variable {d e : MethodDraft} {h gone : Handle} {r r' r₀ : Handle × Handle}

namespace MethodDraft

/-! ### Runs -/

/-- What can be done to the instructions of a method and to its tables. An edit takes no instruction
out: that is left to the method, which keeps its tables in step. -/
inductive Upkeep
  | addHandler (range : GuardedRange)
  | addLine (h : Handle) (line : UInt16)
  | addScope (name descriptor : String) (slot : UInt16) (first last : Handle) (pool : ConstantPool)
  | stripLines
  | stripScopes
  | removeInstruction (h : Handle)
  | edit (e : Edit) (he : e.cost = 0)

/-- The range that is added. -/
def Upkeep.range? : Upkeep → Option (Handle × Handle)
  | addHandler range => some (range.first, range.last)
  | addScope _ _ _ first last _ => some (first, last)
  | _ => none

def Upkeep.perform : Upkeep → MethodM Unit
  | addHandler range => MethodM.addHandler range
  | addLine h line => MethodM.addLine h line
  | addScope name descriptor slot first last _ => MethodM.addScope name descriptor slot first last
  | stripLines => DraftM.change MethodDraft.stripLines
  | stripScopes => DraftM.change MethodDraft.stripScopes
  | removeInstruction h => discard (MethodM.removeInstruction h)
  | edit e _ => MethodM.onInstructions fun s => (fun t => ((), t)) <$> s.edit e

/-- The pool that is there for the change. Only a new scope makes use of it. -/
def Upkeep.pool : Upkeep → ConstantPool
  | addScope _ _ _ _ _ pool => pool
  | _ => .empty

/-- What comes of the change. -/
def upkeep (d : MethodDraft) (u : Upkeep) :
    EStateM.Result Fault (MethodDraft × ConstantPool) Unit := u.perform (d, u.pool)

/-- The draft that the change leaves, when it is made and when it is refused. -/
def after (d : MethodDraft) (u : Upkeep) : MethodDraft := (u.perform.left (d, u.pool)).1

def run (d : MethodDraft) (us : List Upkeep) : MethodDraft := us.foldl after d

/-- The first and the last instruction of every range in the tables. -/
def ranges (d : MethodDraft) : List (Handle × Handle) :=
  d.handlers.map (fun range => (range.first, range.last)) ++
    (d.scopes ++ d.typeScopes).map fun scope => (scope.first, scope.last)

/-- What becomes of a range. -/
def follow (d : MethodDraft) (u : Upkeep) (r : Handle × Handle) : Option (Handle × Handle) :=
  match u with
  | .removeInstruction h =>
    match d.upkeep u with
    | .ok _ _ => shrink h (d.instructions.prev? h) (d.instructions.next? h) r.1 r.2
    | .error _ _ => some r
  | _ => some r

/-! ### What a single change does -/

variable {u : Upkeep} {us vs : List Upkeep} {range : GuardedRange} {t : InstructionSeq}
  {pool : ConstantPool} {fault : Fault} {state : MethodDraft × ConstantPool}

/-- The changes that are not refused. -/
inductive Change (d : MethodDraft) : Upkeep → MethodDraft → Prop
  | addHandler {range : GuardedRange} (hf : d.instructions.contains range.first)
    (hl : d.instructions.contains range.last) (hh : d.instructions.contains range.handler) :
    Change d (.addHandler range) { d with handlers := d.handlers ++ [range] }
  | addLine {h : Handle} {line : UInt16} (hh : d.instructions.contains h) :
    Change d (.addLine h line) { d with lines := d.lines.push (h, line) }
  | addScope {name descriptor : String} {slot : UInt16} {first last : Handle}
    {pool : ConstantPool} (n t : ConstantIndex) (hf : d.instructions.contains first)
    (hl : d.instructions.contains last) :
    Change d (.addScope name descriptor slot first last pool)
      { d with scopes := d.scopes ++ [⟨first, last, n, t, slot⟩] }
  | stripLines : Change d .stripLines d.stripLines
  | stripScopes : Change d .stripScopes d.stripScopes
  | removeInstruction {h : Handle} {i : Instruction Handle} {e : MethodDraft}
    (hh : ∀ range ∈ d.handlers, range.handler ≠ h)
    (hr : d.instructions.remove h = .ok (i, e.instructions))
    (hlines : e.lines.toList =
      moveLines h (d.instructions.next? h) d.lines.toList)
    (hhandlers : e.handlers = d.handlers.filterMap fun range =>
      (shrink h (d.instructions.prev? h) (d.instructions.next? h) range.first range.last).map
        fun (first, last) => { range with first, last })
    (hscopes : e.scopes ++ e.typeScopes = (d.scopes ++ d.typeScopes).filterMap fun scope =>
      (shrink h (d.instructions.prev? h) (d.instructions.next? h) scope.first scope.last).map
        fun (first, last) => { scope with first, last }) :
    Change d (.removeInstruction h) e
  | edit {e : Edit} {he : e.cost = 0} {t : InstructionSeq} (ht : d.instructions.edit e = .ok t) :
    Change d (.edit e he) { d with instructions := t }

theorem checkLive_eq_ok {handles : List Handle} :
    d.checkLive handles = .ok () ↔ ∀ h ∈ handles, d.instructions.contains h := by
  rw [checkLive, Except.forM_eq_ok]
  simp only [InstructionSeq.checkLive_eq_ok]

theorem change_of_upkeep (h : d.upkeep u = .ok () (e, pool)) : d.Change u e := by
  cases u with
  | addHandler range =>
    obtain ⟨hl, h⟩ := MethodM.addHandler_eq_ok.mp h
    cases h
    have hl := checkLive_eq_ok.mp hl
    simp only [List.forall_mem_cons] at hl
    exact .addHandler hl.1 hl.2.1 hl.2.2.1
  | addLine g line =>
    obtain ⟨hl, h⟩ := MethodM.addLine_eq_ok.mp h
    cases h
    exact .addLine (checkLive_eq_ok.mp hl g List.mem_cons_self)
  | addScope name descriptor slot first last pool =>
    obtain ⟨hl, n, _, -, t, _, -, h⟩ := MethodM.addScope_eq_ok.mp h
    cases h
    have hl := checkLive_eq_ok.mp hl
    simp only [List.forall_mem_cons] at hl
    exact .addScope n t hl.1 hl.2.1
  | stripLines =>
    cases h
    exact .stripLines
  | stripScopes =>
    cases h
    exact .stripScopes
  | removeInstruction g =>
    obtain ⟨i, hr⟩ := EStateM.discard_eq_ok.mp h
    obtain ⟨-, hh, hi, he⟩ := removeInstruction_eq_ok hr
    refine .removeInstruction hh hi ?_ ?_ ?_
    · rw [he]
    · rw [he]
    · rw [he]
      exact (List.filterMap_append ..).symm
  | edit e he =>
    rw [upkeep, Upkeep.perform, MethodM.onInstructions_eq_ok] at h
    obtain ⟨t, ht, h⟩ := h
    cases h
    obtain ⟨_, ht, h⟩ := Except.map_eq_ok.mp ht
    cases h
    exact .edit ht

/-- A change that is refused leaves the draft as it was. -/
theorem Upkeep.atomic_perform (u : Upkeep) : DraftM.Atomic u.perform := by
  cases u with
  | addHandler range => exact MethodM.atomic_addHandler range
  | addLine h line => exact MethodM.atomic_addLine h line
  | addScope name descriptor slot first last pool =>
    exact MethodM.atomic_addScope name descriptor slot first last
  | stripLines => exact DraftM.total_change.atomic
  | stripScopes => exact DraftM.total_change.atomic
  | removeInstruction h => exact (MethodM.atomic_removeInstruction h).discard
  | edit e he =>
    rw [Upkeep.perform]
    exact MethodM.atomic_onInstructions _

theorem Change.slots_le (h : d.Change u e) :
    d.instructions.slots.size ≤ e.instructions.slots.size := by
  cases h with
  | removeInstruction _ hr =>
    exact (step_of_edit (e := .remove _) (Except.map_eq_ok.mpr ⟨_, hr, rfl⟩)).size_le.1
  | edit ht => exact (step_of_edit ht).size_le.1
  | _ => exact Nat.le_refl _

theorem Change.linked (h : d.Change u e) (hd : d.instructions.Linked)
    (hc : e.instructions.slots.size ≤ UInt32.size) : e.instructions.Linked := by
  cases h with
  | removeInstruction _ hr => exact linked_remove hd hr
  | edit ht => exact linked_edit hd ht hc
  | _ => exact hd

/-- What is still there after an instruction was removed. -/
theorem contains_of_remove {s : InstructionSeq} {i : Instruction Handle} (hs : s.Linked)
    (hr : s.remove gone = .ok (i, t)) (hh : s.contains h) (hne : h ≠ gone) : t.contains h := by
  obtain ⟨before, after, hsplit, ht, -⟩ := handles_of_remove hs hr
  rw [hs.live, hsplit, List.mem_append, List.mem_cons] at hh
  rw [(linked_remove hs hr).live, ht, List.mem_append]
  exact hh.imp_right fun hh => hh.resolve_left hne

/-- Handlers and lines begin at instructions. -/
structure EntriesLive (d : MethodDraft) : Prop where
  handlers : ∀ range ∈ d.handlers, d.instructions.contains range.handler
  lines : ∀ line ∈ d.lines.toList, d.instructions.contains line.1

theorem Change.entriesLive (h : d.Change u e) (hd : d.instructions.Linked)
    (he : e.instructions.Linked) (hl : d.EntriesLive) : e.EntriesLive := by
  cases h with
  | addHandler hf hlast hh =>
    refine ⟨fun range hr => ?_, hl.lines⟩
    rcases List.mem_append.mp hr with hr | hr
    · exact hl.handlers range hr
    · cases List.mem_singleton.mp hr
      exact hh
  | addLine hh =>
    refine ⟨hl.handlers, fun line hm => ?_⟩
    rw [Array.toList_push, List.mem_append] at hm
    rcases hm with hm | hm
    · exact hl.lines line hm
    · cases List.mem_singleton.mp hm
      exact hh
  | addScope => exact ⟨hl.handlers, hl.lines⟩
  | stripLines => exact ⟨hl.handlers, fun line hm => by cases hm⟩
  | stripScopes => exact ⟨hl.handlers, hl.lines⟩
  | removeInstruction hh hr hlines hhandlers =>
    constructor
    · intro range hm
      rw [hhandlers] at hm
      obtain ⟨old, ho, hs⟩ := List.mem_filterMap.mp hm
      obtain ⟨ends, -, rfl⟩ := Option.map_eq_some_iff.mp hs
      exact contains_of_remove hd hr (hl.handlers old ho) (hh old ho)
    · intro line hm
      rw [hlines] at hm
      rcases mem_moveLines hm with ⟨hm, hne⟩ | hn
      · exact contains_of_remove hd hr (hl.lines line hm) hne
      · obtain ⟨before, after, -, ht, -, hnext⟩ := handles_of_remove hd hr
        rw [he.live, ht]
        exact List.mem_append_right _ (List.mem_of_head? (hnext ▸ hn))
  | @edit ed hcost t ht =>
    have hs : d.instructions.Step 0 t := hcost ▸ step_of_edit ht
    exact ⟨fun range hm => hs.contains hd he (hl.handlers range hm),
      fun line hm => hs.contains hd he (hl.lines line hm)⟩

theorem follow_removeInstruction (hu : d.upkeep (.removeInstruction gone) = .ok () state) :
    d.follow (.removeInstruction gone) r =
      shrink gone (d.instructions.prev? gone) (d.instructions.next? gone) r.1 r.2 := by
  rw [follow, hu]

theorem follow_of_error (hu : d.upkeep u = .error fault state) : d.follow u r = some r := by
  cases u with
  | removeInstruction h => rw [follow, hu]
  | _ => rfl

/-- What a range becomes is in order if the range was. -/
theorem spans_of_follow (hu : d.upkeep u = .ok () (e, pool)) (hd : d.instructions.Linked)
    (he : e.instructions.Linked) (hr : d.instructions.Spans r.1 r.2)
    (hf : d.follow u r = some r') : e.instructions.Spans r'.1 r'.2 := by
  cases change_of_upkeep hu with
  | removeInstruction _ hremove =>
    obtain ⟨before, after, hsplit, ht, hprev, hnext⟩ := handles_of_remove hd hremove
    have hn := hd.nodup
    rw [follow_removeInstruction hu, hprev, hnext] at hf
    rw [spans_iff hd, hsplit] at hr
    rw [hsplit] at hn
    rw [spans_iff he, ht]
    exact hr.shrink hn hf
  | @edit ed hcost t ht =>
    cases hf
    have hs : d.instructions.Step 0 t := hcost ▸ step_of_edit ht
    exact hs.spans hd he hr
  | _ =>
    cases hf
    exact hr

theorem mem_ranges : r ∈ d.ranges ↔ (∃ range ∈ d.handlers, (range.first, range.last) = r) ∨
    ∃ scope ∈ d.scopes ++ d.typeScopes, (scope.first, scope.last) = r := by
  rw [ranges, List.mem_append, List.mem_map, List.mem_map]

/-- A range in the tables was there before, or it was added. -/
theorem mem_ranges_of_upkeep (hu : d.upkeep u = .ok () (e, pool)) (hr : r ∈ e.ranges) :
    (∃ r₀ ∈ d.ranges, d.follow u r₀ = some r) ∨ u.range? = some r := by
  cases change_of_upkeep hu with
  | addHandler =>
    rcases mem_ranges.mp hr with ⟨range, hm, rfl⟩ | hscope
    · rcases List.mem_append.mp hm with hm | hm
      · exact .inl ⟨_, mem_ranges.mpr (.inl ⟨range, hm, rfl⟩), rfl⟩
      · cases List.mem_singleton.mp hm
        exact .inr rfl
    · exact .inl ⟨r, mem_ranges.mpr (.inr hscope), rfl⟩
  | addLine => exact .inl ⟨r, hr, rfl⟩
  | addScope =>
    rcases mem_ranges.mp hr with hrange | ⟨scope, hm, rfl⟩
    · exact .inl ⟨r, mem_ranges.mpr (.inl hrange), rfl⟩
    · rw [List.append_assoc, List.mem_append, List.singleton_append, List.mem_cons] at hm
      rcases hm with hm | rfl | hm
      · exact .inl ⟨_, mem_ranges.mpr (.inr ⟨scope, List.mem_append_left _ hm, rfl⟩), rfl⟩
      · exact .inr rfl
      · exact .inl ⟨_, mem_ranges.mpr (.inr ⟨scope, List.mem_append_right _ hm, rfl⟩), rfl⟩
  | stripLines => exact .inl ⟨r, hr, rfl⟩
  | stripScopes =>
    rcases mem_ranges.mp hr with hrange | ⟨scope, hm, -⟩
    · exact .inl ⟨r, mem_ranges.mpr (.inl hrange), rfl⟩
    · cases hm
  | removeInstruction _ _ _ hhandlers hscopes =>
    rw [mem_ranges, hhandlers, hscopes] at hr
    refine .inl ?_
    rcases hr with ⟨range, hm, rfl⟩ | ⟨scope, hm, rfl⟩
    · obtain ⟨old, ho, hs⟩ := List.mem_filterMap.mp hm
      obtain ⟨ends, hends, rfl⟩ := Option.map_eq_some_iff.mp hs
      exact ⟨_, mem_ranges.mpr (.inl ⟨old, ho, rfl⟩), (follow_removeInstruction hu).trans hends⟩
    · obtain ⟨old, ho, hs⟩ := List.mem_filterMap.mp hm
      obtain ⟨ends, hends, rfl⟩ := Option.map_eq_some_iff.mp hs
      exact ⟨_, mem_ranges.mpr (.inr ⟨old, ho, rfl⟩), (follow_removeInstruction hu).trans hends⟩
  | edit => exact .inl ⟨r, hr, rfl⟩

/-! ### What a run does -/

theorem run_append : d.run (us ++ [u]) = (d.run us).after u := by
  rw [run, List.foldl_append]
  rfl

theorem after_of_ok (hu : d.upkeep u = .ok () (e, pool)) : d.after u = e := by
  rw [after, EStateM.left_of_ok hu]

theorem after_of_error (hu : d.upkeep u = .error fault state) : d.after u = d := by
  rw [after, EStateM.left_of_error hu]
  exact u.atomic_perform hu

theorem slots_le_after : d.instructions.slots.size ≤ (d.after u).instructions.slots.size := by
  cases hu : d.upkeep u with
  | ok _ state => exact after_of_ok hu ▸ (change_of_upkeep hu).slots_le
  | error fault state => exact Nat.le_of_eq (by rw [after_of_error hu])

/-- While there are handles enough for its slots, the draft is linked, and its lines and handlers
are those of instructions. -/
theorem entriesLive_run (hd : d.instructions.Linked) (hl : d.EntriesLive)
    (hc : (d.run us).instructions.slots.size ≤ UInt32.size) :
    (d.run us).instructions.Linked ∧ (d.run us).EntriesLive := by
  induction us using List.reverseRecOn with
  | nil => exact ⟨hd, hl⟩
  | append_singleton us u ih =>
    rw [run_append] at hc ⊢
    obtain ⟨hlink, hlive⟩ := ih (Nat.le_trans slots_le_after hc)
    cases hu : (d.run us).upkeep u with
    | error fault state =>
      rw [after_of_error hu]
      exact ⟨hlink, hlive⟩
    | ok _ state =>
      rw [after_of_ok hu] at hc ⊢
      have hchange := change_of_upkeep hu
      have hlink' := hchange.linked hlink hc
      exact ⟨hlink', hchange.entriesLive hlink hlink' hlive⟩

/-- The range `r` was in a table of `d` to begin with, or the last change of the run has added it.
-/
inductive Added (d : MethodDraft) : List Upkeep → Handle × Handle → Prop
  | start {r : Handle × Handle} (hr : r ∈ d.ranges) : Added d [] r
  | last {us : List Upkeep} {u : Upkeep} {r : Handle × Handle} {e : MethodDraft}
    {pool : ConstantPool} (hr : u.range? = some r)
    (hu : (d.run us).upkeep u = .ok () (e, pool)) : Added d (us ++ [u]) r

/-- After the run `vs` the range `r` is what has become of `r₀`, which was added by the end of the
run `us`. -/
inductive Stems (d : MethodDraft) (us : List Upkeep) (r₀ : Handle × Handle) :
    List Upkeep → Handle × Handle → Prop
  | added (h : Added d us r₀) : Stems d us r₀ us r₀
  | followed {vs : List Upkeep} {u : Upkeep} {r r' : Handle × Handle} (h : Stems d us r₀ vs r)
    (hf : (d.run vs).follow u r = some r') : Stems d us r₀ (vs ++ [u]) r'

theorem exists_stems (hr : r ∈ (d.run vs).ranges) : ∃ us r₀, Stems d us r₀ vs r := by
  induction vs using List.reverseRecOn generalizing r with
  | nil => exact ⟨[], r, .added (.start hr)⟩
  | append_singleton vs u ih =>
    rw [run_append] at hr
    cases hu : (d.run vs).upkeep u with
    | error fault state =>
      rw [after_of_error hu] at hr
      obtain ⟨us, r₀, h⟩ := ih hr
      exact ⟨us, r₀, h.followed (follow_of_error hu)⟩
    | ok _ state =>
      rw [after_of_ok hu] at hr
      rcases mem_ranges_of_upkeep hu hr with ⟨r₁, hr₁, hf⟩ | hr
      · obtain ⟨us, r₀, h⟩ := ih hr₁
        exact ⟨us, r₀, h.followed hf⟩
      · exact ⟨_, r, .added (.last hr hu)⟩

theorem Stems.spans (h : Stems d us r₀ vs r) (hd : d.instructions.Linked) (hl : d.EntriesLive)
    (hc : (d.run vs).instructions.slots.size ≤ UInt32.size)
    (hr : (d.run us).instructions.Spans r₀.1 r₀.2) :
    (d.run vs).instructions.Spans r.1 r.2 := by
  induction h with
  | added => exact hr
  | @followed vs u r r' _ hf ih =>
    rw [run_append] at hc ⊢
    have hc' := Nat.le_trans slots_le_after hc
    have hspans := ih hc'
    obtain ⟨hlink, hlive⟩ := entriesLive_run hd hl hc'
    cases hu : (d.run vs).upkeep u with
    | error fault state =>
      rw [follow_of_error hu] at hf
      cases hf
      rwa [after_of_error hu]
    | ok _ state =>
      rw [after_of_ok hu] at hc ⊢
      exact spans_of_follow hu hlink ((change_of_upkeep hu).linked hlink hc) hspans hf

theorem Stems.origin (h : Stems d us r₀ vs r) : Added d us r₀ ∧ us <+: vs := by
  induction h with
  | added h => exact ⟨h, List.prefix_rfl⟩
  | followed _ _ ih => exact ⟨ih.1, ih.2.trans (List.prefix_append _ _)⟩

theorem TablesFit.ranges (h : d.TablesFit) : ∀ r ∈ d.ranges, d.instructions.Spans r.1 r.2 := by
  intro r hr
  rcases mem_ranges.mp hr with ⟨range, hm, rfl⟩ | ⟨scope, hm, rfl⟩
  · exact (h.handlers range hm).1
  · exact h.scopes scope hm

theorem tablesFit_of_ranges (hl : d.EntriesLive)
    (hr : ∀ r ∈ d.ranges, d.instructions.Spans r.1 r.2) : d.TablesFit :=
  ⟨fun range hm => ⟨hr _ (mem_ranges.mpr (.inl ⟨range, hm, rfl⟩)), hl.handlers range hm⟩,
    hl.lines, fun scope hm => hr _ (mem_ranges.mpr (.inr ⟨scope, hm, rfl⟩))⟩

/-- A draft is made or read with its tables in order. Whatever is done to it, its lines and handlers
are those of instructions that are there, and a range that was in order when it was added still is.
If that was so for all that were added, the tables are in order, and building never meets a stale
handle. A handle has 32 bits for its slot, so there may not be more slots than that. -/
theorem tablesFit_run
    (hd : (∃ flags name descriptor owner, make flags name descriptor owner = .ok d) ∨
      ∃ pool owner m, ofMethod pool owner m = .ok d)
    (hc : (d.run us).instructions.slots.size ≤ UInt32.size) :
    d.TablesFit ∧
    (∀ range ∈ (d.run us).handlers, (d.run us).instructions.contains range.handler) ∧
    (∀ line ∈ (d.run us).lines.toList, (d.run us).instructions.contains line.1) ∧
    (∀ r ∈ (d.run us).ranges, ∃ vs r₀, Stems d vs r₀ us r) ∧
    (∀ vs r₀ r, Stems d vs r₀ us r → (d.run vs).instructions.Spans r₀.1 r₀.2 →
      (d.run us).instructions.Spans r.1 r.2) ∧
    ((∀ vs r, vs <+: us → vs ≠ [] → Added d vs r → (d.run vs).instructions.Spans r.1 r.2) →
      (d.run us).TablesFit ∧
        ∀ pool h pool', (d.run us).build pool ≠ .error (.staleHandle h) pool') := by
  obtain ⟨hlink, hfit⟩ : d.instructions.Linked ∧ d.TablesFit := by
    rcases hd with ⟨flags, name, descriptor, owner, h⟩ | ⟨pool, owner, m, h⟩
    · have hv : Valid .empty d := (valid_make h).1
      exact ⟨hv.kept.linked, hv.tables⟩
    · obtain ⟨hv, -⟩ := valid_ofMethod h
      exact ⟨hv.kept.linked, hv.tables⟩
  have hlive : d.EntriesLive := ⟨fun range hm => (hfit.handlers range hm).2, hfit.lines⟩
  obtain ⟨hlink', hlive'⟩ := entriesLive_run hlink hlive hc
  refine ⟨hfit, hlive'.handlers, hlive'.lines, fun r => exists_stems,
    fun vs r₀ r h => h.spans hlink hlive hc, fun hadd => ?_⟩
  have hranges : ∀ r ∈ (d.run us).ranges, (d.run us).instructions.Spans r.1 r.2 := by
    intro r hr
    obtain ⟨vs, r₀, h⟩ := exists_stems hr
    obtain ⟨hadded, hprefix⟩ := h.origin
    refine h.spans hlink hlive hc ?_
    cases hadded with
    | start hr₀ => exact hfit.ranges r₀ hr₀
    | last hrange hu => exact hadd _ r₀ hprefix (by simp) (.last hrange hu)
  have hfit' := tablesFit_of_ranges hlive' hranges
  exact ⟨hfit', steady_build hlink' hfit'.live⟩

/-- A range that begins with an instruction that has gone makes building fail. -/
theorem build_of_gone {ranges : List GuardedRange} {code : List UInt8} {pool : ConstantPool}
    (hr : d.handlers = range :: ranges) (hg : range.first ∉ d.instructions.handles)
    (hi : d.instructions.isEmpty = false) (he : d.instructions.encode = .ok code)
    (hp : pool.extent + 1 < capacity) :
    ∃ pool', d.build pool = .error (.staleHandle range.first) pool' := by
  obtain ⟨name, pool₁, hname, hx⟩ := PoolM.addText_of_room d.name (Nat.lt_of_succ_lt hp)
  obtain ⟨descriptor, pool₂, hdescriptor, -⟩ :=
    PoolM.addText_of_room d.descriptor.describe (Nat.lt_of_le_of_lt hx hp)
  have hhandlers : d.handlers.mapM (storedHandler d.instructions.layout) =
      .error (.staleHandle range.first) := by
    refine Except.mapM_eq_error.mpr ⟨[], range, ranges, hr, by simp, ?_⟩
    exact Except.bind_eq_error.mpr (.inl (startOffset_of_notMem hg))
  have hbody : d.buildCode pool₂ = .error (.staleHandle range.first) pool₂ := by
    refine EStateM.bind_eq_error.mpr (.inr ⟨code, pool₂, PoolM.ask_eq_ok.mpr ⟨he, rfl⟩, ?_⟩)
    exact EStateM.bind_eq_error.mpr (.inl (PoolM.ask_eq_error.mpr ⟨hhandlers, rfl⟩))
  refine ⟨pool₂, ?_⟩
  rw [build_eq]
  refine EStateM.bind_eq_error.mpr (.inr ⟨name, pool₁, hname, ?_⟩)
  refine EStateM.bind_eq_error.mpr (.inr ⟨descriptor, pool₂, hdescriptor, ?_⟩)
  refine EStateM.bind_eq_error.mpr (.inl ?_)
  rw [addCode, if_neg (by rw [hi]; exact Bool.false_ne_true)]
  exact EStateM.bind_eq_error.mpr (.inl hbody)

/-- A method without code. -/
def blank : MethodDraft :=
  ⟨.ofBits .method staticBit, "run", ⟨[], none⟩, "me/Example", .empty, 0, 0, [], #[], [], [], [], [],
    [], [], []⟩

theorem make_blank : make (.ofBits .method staticBit) "run" "()V" "me/Example" = .ok blank := rfl

/-- Two instructions and a range of them, which the first one handles. The second one is removed. -/
def outlived (first last : Handle) : List Upkeep := [
  .edit (.append (.simple .returnVoid)) rfl, .edit (.append (.simple .returnVoid)) rfl,
  .addHandler ⟨first, last, ⟨0, 0⟩, none⟩, .removeInstruction ⟨1, 0⟩]

/-- A range that is added the wrong way round can begin with the last instruction. When that is
removed, there is no next one, and the range still begins with it. -/
theorem build_outlived_backwards :
    make (.ofBits .method staticBit) "run" "()V" "me/Example" = .ok blank ∧
    (blank.run (outlived ⟨1, 0⟩ ⟨0, 0⟩)).handlers = [⟨⟨1, 0⟩, ⟨0, 0⟩, ⟨0, 0⟩, none⟩] ∧
    ¬ (blank.run (outlived ⟨1, 0⟩ ⟨0, 0⟩)).instructions.contains ⟨1, 0⟩ ∧
    ∃ pool, (blank.run (outlived ⟨1, 0⟩ ⟨0, 0⟩)).build .empty =
      .error (.staleHandle ⟨1, 0⟩) pool := by
  have hhandlers : (blank.run (outlived ⟨1, 0⟩ ⟨0, 0⟩)).handlers =
      [⟨⟨1, 0⟩, ⟨0, 0⟩, ⟨0, 0⟩, none⟩] := by decide +kernel
  have hleft : (blank.run (outlived ⟨1, 0⟩ ⟨0, 0⟩)).instructions.toList =
      [(⟨0, 0⟩, .simple .returnVoid)] := by decide +kernel
  have hgone : ⟨1, 0⟩ ∉ (blank.run (outlived ⟨1, 0⟩ ⟨0, 0⟩)).instructions.handles := by
    rw [handles, hleft]
    decide
  exact ⟨make_blank, hhandlers, by decide +kernel,
    build_of_gone hhandlers hgone (by decide +kernel) (encode_return hleft) (by decide)⟩

theorem tablesFit_run_outlived :
    (blank.run (outlived ⟨0, 0⟩ ⟨1, 0⟩)).handlers = [⟨⟨0, 0⟩, ⟨0, 0⟩, ⟨0, 0⟩, none⟩] ∧
    (blank.run (outlived ⟨0, 0⟩ ⟨1, 0⟩)).TablesFit := by
  have hc : (blank.run (outlived ⟨0, 0⟩ ⟨1, 0⟩)).instructions.slots.size ≤ UInt32.size := by
    decide +kernel
  obtain ⟨-, -, -, -, -, h⟩ := tablesFit_run (.inl ⟨_, _, _, _, make_blank⟩) hc
  refine ⟨by decide +kernel, (h fun vs r hv hne hadded => ?_).1⟩
  cases hadded with
  | start => exact absurd rfl hne
  | @last ws u _ _ _ hr =>
    -- Only the third change adds a range.
    obtain ⟨rest, hrest⟩ := hv
    rcases ws with _ | ⟨a, _ | ⟨b, _ | ⟨c, _ | ⟨x, _ | _⟩⟩⟩⟩ <;> cases hrest <;> cases hr
    exact ⟨0, 1, by decide +kernel, by decide +kernel, by decide⟩

end MethodDraft

end Classfile
