import Classfile.Proofs.Draft.Boundaries

/-!
What the tables of a method say of its instructions: which of them a range covers, and which line is
in effect at them. When an instruction is removed, the tables say of all others what they said
before.
-/
namespace Classfile

open InstructionSeq

variable {d e : MethodDraft} {s : InstructionSeq} {first last gone h g : Handle}
  {before after m : List Handle} {i : Instruction Handle}

namespace InstructionSeq

/-- The instructions from one to another, in their order. -/
def covered (s : InstructionSeq) (first last : Handle) : List Handle :=
  match s.position? first, s.position? last with
  | some n, some m => (s.handles.take (m + 1)).drop n
  | _, _ => []

theorem position?_of_handles (hs : s.Linked) (hl : s.handles = before ++ h :: after) :
    s.position? h = some before.length := by
  obtain ⟨xs, rest, hsplit, rfl, hrest⟩ := List.map_eq_append_iff.mp hl
  obtain ⟨⟨g, i⟩, ys, rfl, rfl, rfl⟩ := List.map_eq_cons_iff.mp hrest
  rw [position?_of_split hs hsplit, List.length_map]

theorem covered_eq (hs : s.Linked) (h : Stretch s.handles m first last) :
    s.covered first last = m := by
  obtain ⟨⟨before, after, hsplit⟩, hhead, hlast⟩ := h
  have hp : s.position? first = some before.length := by
    obtain ⟨rest, rfl⟩ := List.head?_eq_some_iff.mp hhead
    exact position?_of_handles hs (by rw [← hsplit, List.append_assoc]; rfl)
  obtain ⟨front, rfl⟩ := List.getLast?_eq_some_iff.mp hlast
  have hback : s.handles = (before ++ front) ++ last :: after := by
    rw [← hsplit]
    simp
  have hq := position?_of_handles hs hback
  rw [covered, hp, hq, ← hsplit, List.length_append]
  dsimp only
  rw [List.take_left' (by simp [Nat.add_assoc]), List.drop_left]

end InstructionSeq

/-- The instruction that goes, and those that are left. -/
theorem toList_of_remove {t : InstructionSeq} (hs : s.Linked) (hr : s.remove h = .ok (i, t)) :
    s.get? h = some i ∧ t.toList = s.toList.filter (·.1 ≠ h) := by
  obtain ⟨-, xs, j, ys, hl, -, he⟩ := remove_eq_ok hr
  cases he
  refine ⟨get?_of_split hs hl, ?_⟩
  rw [erase_between hl, hl, List.filter_append, List.filter_cons_of_neg (by simp),
    ← List.filter_append]
  refine (List.filter_eq_self.mpr fun item hm => decide_eq_true ?_).symm
  exact (((handles_around hs hl).2 item.1).mp (List.mem_map_of_mem hm)).1

def GuardedRange.ends (range : GuardedRange) : Handle × Handle := (range.first, range.last)

/-- The same handler for another range. -/
def GuardedRange.withEnds (range : GuardedRange) (ends : Handle × Handle) : GuardedRange :=
  { range with first := ends.1, last := ends.2 }

def VariableScope.ends (scope : VariableScope) : Handle × Handle := (scope.first, scope.last)

/-- The same variable in another range. -/
def VariableScope.withEnds (scope : VariableScope) (ends : Handle × Handle) : VariableScope :=
  { scope with first := ends.1, last := ends.2 }

namespace MethodDraft

/-! ### Ranges -/

/-- The ranges of a table cover what they did, but for one instruction. Those that covered nothing
else are no longer in the table. -/
def Narrows {α : Type} (s t : InstructionSeq) (gone : Handle) (ends : α → Handle × Handle)
    (withEnds : α → Handle × Handle → α) (old new : List α) : Prop :=
  List.Forall₂ (fun a b => ∃ r, b = withEnds a r ∧
      t.covered r.1 r.2 = (s.covered (ends a).1 (ends a).2).filter (· ≠ gone))
    (old.filter fun a => s.covered (ends a).1 (ends a).2 ≠ [gone]) new

theorem narrows_shrink {α : Type} {t : InstructionSeq} {ends : α → Handle × Handle}
    {withEnds : α → Handle × Handle → α} {table : List α} (hs : s.Linked)
    (hr : s.remove gone = .ok (i, t))
    (hspans : ∀ a ∈ table, s.Spans (ends a).1 (ends a).2) :
    Narrows s t gone ends withEnds table (table.filterMap fun a =>
      (shrink gone (s.prev? gone) (s.next? gone) (ends a).1 (ends a).2).map (withEnds a)) := by
  obtain ⟨before, after, hsplit, ht, hprev, hnext⟩ := handles_of_remove hs hr
  have hnodup := hs.nodup
  rw [hsplit] at hnodup
  rw [hprev, hnext]
  induction table with
  | nil => exact .nil
  | cons a table ih =>
    rw [List.forall_mem_cons] at hspans
    obtain ⟨m, hm⟩ := ((spans_iff hs).mp hspans.1).exists_stretch
    have hcovered := covered_eq hs hm
    rw [hsplit] at hm
    by_cases hne : m = [gone]
    · subst hne
      rw [Narrows, List.filter_cons_of_neg (by simp [hcovered]),
        List.filterMap_cons_none (by rw [hm.shrink_eq_none, Option.map_none])]
      exact ih hspans.2
    · obtain ⟨r, hshrink, hleft⟩ := hm.shrink hnodup hne
      rw [← ht] at hleft
      rw [Narrows, List.filter_cons_of_pos (by simpa [hcovered] using hne),
        List.filterMap_cons_some (by rw [hshrink, Option.map_some])]
      refine .cons ⟨r, rfl, ?_⟩ (ih hspans.2)
      rw [covered_eq (linked_remove hs hr) hleft, hcovered]

/-! ### Lines -/

variable {lines : List (Handle × UInt16)}

/-- The line in effect at an instruction: that of the nearest one, at it or before it, that has a
line. -/
def lineAt? (d : MethodDraft) (h : Handle) : Option UInt16 := do
  let n ← d.instructions.position? h
  ((d.instructions.handles.take (n + 1)).flatMap (linesOf d.lines.toList)).getLast?

theorem lineAt?_eq (hd : d.instructions.Linked)
    (hl : d.instructions.handles = before ++ h :: after) :
    d.lineAt? h = ((before ++ [h]).flatMap (linesOf d.lines.toList)).getLast? := by
  have htake : (before ++ [h] ++ after).take (before.length + 1) = before ++ [h] :=
    List.take_left' List.length_append
  rw [lineAt?, position?_of_handles hd hl, hl, List.append_cons]
  change (((before ++ [h] ++ after).take (before.length + 1)).flatMap _).getLast? = _
  rw [htake]

/-- Where the line moves to, it is in effect for the same instructions as before. -/
theorem getLast?_moved {behind own line more : List UInt16} (hl : line.length ≤ 1) :
    (behind ++ ((if own = [] then line.take 1 else own) ++ more)).getLast? =
      (behind ++ (line ++ (own ++ more))).getLast? := by
  split
  · rename_i hown
    rw [hown, List.take_of_length_le hl, List.nil_append]
  · rename_i hown
    obtain ⟨last, hlast⟩ := Option.isSome_iff_exists.mp (List.getLast?_isSome.mpr hown)
    simp [List.getLast?_append, hlast]

theorem flatMap_moveLines {next : Option Handle} {handles : List Handle}
    (hn : next ≠ some gone) (hg : gone ∉ handles) (hh : ∀ g ∈ handles, next ≠ some g) :
    handles.flatMap (linesOf (moveLines gone next lines)) = handles.flatMap (linesOf lines) := by
  refine List.flatMap_congr fun g hm => ?_
  rw [linesOf_moveLines hn, if_neg fun he : g = gone => hg (he ▸ hm),
    if_neg fun hc => hh g hm hc.1]

/-- The line in effect at an instruction, before another one was removed and afterwards. -/
theorem lineAt?_moveLines {xs ys : List Handle} (hn : (before ++ gone :: after).Nodup)
    (hl : (linesOf lines gone).length ≤ 1) (hg : before ++ after = xs ++ g :: ys) :
    ∃ xs' ys', before ++ gone :: after = xs' ++ g :: ys' ∧
      ((xs ++ [g]).flatMap (linesOf (moveLines gone after.head? lines))).getLast? =
        ((xs' ++ [g]).flatMap (linesOf lines)).getLast? := by
  obtain ⟨hgone, hnodup⟩ := List.nodup_cons.mp (List.nodup_middle.mp hn)
  have hnext : after.head? ≠ some gone := fun he =>
    hgone (List.mem_append_right before (List.mem_of_head? he))
  have hbefore : ∀ x ∈ before, after.head? ≠ some x := fun x hx he =>
    (List.nodup_append.mp hnodup).2.2 x hx x (List.mem_of_head? he) rfl
  have hm : g ∈ before ++ after := by
    rw [hg]
    exact List.mem_append_right xs List.mem_cons_self
  rcases List.mem_append.mp hm with hm | hm
  · obtain ⟨p, q, rfl⟩ := List.append_of_mem hm
    rw [List.append_assoc] at hg hnodup
    obtain ⟨rfl, rfl⟩ := InOrder.split_unique hnodup hg
    refine ⟨p, q ++ gone :: after, by simp, ?_⟩
    have hin : ∀ x ∈ p ++ [g], x ∈ p ++ g :: q := fun x hx => by
      rw [List.append_cons]
      exact List.mem_append_left q hx
    rw [flatMap_moveLines hnext (fun hx => hgone (List.mem_append_left after (hin gone hx)))
      fun x hx => hbefore x (hin x hx)]
  · obtain ⟨p, q, rfl⟩ := List.append_of_mem hm
    rw [← List.append_assoc] at hg hnodup
    obtain ⟨rfl, rfl⟩ := InOrder.split_unique hnodup hg
    refine ⟨before ++ gone :: p, q, by simp, ?_⟩
    -- The next instruction is among those up to this one.
    obtain ⟨next, rest, hpg⟩ := List.exists_cons_of_ne_nil
      (List.append_ne_nil_of_right_ne_nil p (List.cons_ne_nil g []))
    have hafter : p ++ g :: q = next :: (rest ++ q) := by
      rw [List.append_cons, hpg, List.cons_append]
    rw [List.append_assoc] at hnodup
    rw [hafter] at hnext hbefore hgone hnodup ⊢
    have hrest := (List.nodup_cons.mp (List.nodup_middle.mp hnodup)).1
    rw [List.mem_append, List.mem_cons, List.mem_append] at hgone
    rw [List.append_assoc, hpg, List.append_assoc, List.cons_append, hpg, List.flatMap_append,
      List.flatMap_cons, List.flatMap_append, List.flatMap_cons, List.flatMap_cons,
      flatMap_moveLines hnext (by tauto) hbefore, flatMap_moveLines hnext (by tauto),
      linesOf_moveLines hnext]
    · have hne : next ≠ gone := fun he => hgone (.inr (.inl he.symm))
      simp only [hne, if_false, List.head?_cons, true_and]
      exact getLast?_moved hl
    · rintro x hx he
      cases he
      exact hrest (List.mem_append_right before (List.mem_append_left q hx))

/-- No instruction gets a second line. -/
theorem length_linesOf_moveLines {next : Option Handle} (hn : next ≠ some gone)
    (hl : (linesOf lines g).length ≤ 1) : (linesOf (moveLines gone next lines) g).length ≤ 1 := by
  rw [linesOf_moveLines hn]
  split
  · exact Nat.zero_le 1
  · split
    · exact List.length_take_le 1 _
    · exact hl

/-! ### Removing an instruction -/

/-- `e` is the draft `d` without an instruction, and says of all others what `d` says. -/
structure Without (d : MethodDraft) (gone : Handle) (e : MethodDraft) : Prop where
  others : e = { d with
    instructions := e.instructions, lines := e.lines, handlers := e.handlers, scopes := e.scopes,
    typeScopes := e.typeScopes }
  instructions : e.instructions.toList = d.instructions.toList.filter (·.1 ≠ gone)
  handlers : Narrows d.instructions e.instructions gone GuardedRange.ends GuardedRange.withEnds
    d.handlers e.handlers
  scopes : Narrows d.instructions e.instructions gone VariableScope.ends VariableScope.withEnds
    d.scopes e.scopes
  typeScopes : Narrows d.instructions e.instructions gone VariableScope.ends VariableScope.withEnds
    d.typeScopes e.typeScopes
  lineAt : ∀ g ∈ e.instructions.handles, e.lineAt? g = d.lineAt? g
  single : ∀ g ∈ e.instructions.handles, (linesOf e.lines.toList g).length ≤ 1

variable {pool pool' : ConstantPool}

theorem without_of_removeInstruction (hs : d.instructions.Linked)
    (hr : ∀ r ∈ d.ranges, d.instructions.Spans r.1 r.2)
    (hl : ∀ g ∈ d.instructions.handles, (linesOf d.lines.toList g).length ≤ 1)
    (h : MethodM.removeInstruction gone (d, pool) = .ok i (e, pool')) :
    d.instructions.get? gone = some i ∧ d.Without gone e := by
  obtain ⟨-, -, hremove, he⟩ := removeInstruction_eq_ok h
  obtain ⟨before, after, hhandles, hleft, -, hnext⟩ := handles_of_remove hs hremove
  have hlines : e.lines.toList = moveLines gone after.head? d.lines.toList := by
    rw [he, hnext]
  have hnodup := hs.nodup
  rw [hhandles] at hnodup
  have hgone := (List.nodup_cons.mp (List.nodup_middle.mp hnodup)).1
  obtain ⟨hget, hlist⟩ := toList_of_remove hs hremove
  refine ⟨hget, ⟨by rw [he], hlist, ?_, ?_, ?_, ?_, ?_⟩⟩
  · rw [he]
    exact narrows_shrink hs hremove fun range hm => hr _ (mem_ranges.mpr (.inl ⟨range, hm, rfl⟩))
  · rw [he]
    exact narrows_shrink hs hremove fun scope hm =>
      hr _ (mem_ranges.mpr (.inr ⟨scope, List.mem_append_left _ hm, rfl⟩))
  · rw [he]
    exact narrows_shrink hs hremove fun scope hm =>
      hr _ (mem_ranges.mpr (.inr ⟨scope, List.mem_append_right _ hm, rfl⟩))
  · intro g hg
    obtain ⟨xs, ys, hsplit⟩ := List.append_of_mem hg
    obtain ⟨xs', ys', hsplit', hline⟩ := lineAt?_moveLines hnodup
      (hl gone (by rw [hhandles]; simp)) (hleft.symm.trans hsplit)
    rw [lineAt?_eq (linked_remove hs hremove) hsplit, hlines, hline,
      lineAt?_eq hs (hhandles.trans hsplit')]
  · intro g hg
    rw [hlines]
    refine length_linesOf_moveLines (fun hn => hgone ?_) (hl g ?_)
    · exact List.mem_append_right before (List.mem_of_head? hn)
    · rw [hleft] at hg
      rw [hhandles]
      exact ((List.Sublist.refl before).append (List.sublist_cons_self gone after)).subset hg

/-- What comes of asking for an instruction to be removed, with the draft and the pool as they are
then. -/
inductive Removal (d : MethodDraft) (pool : ConstantPool) (h : Handle) :
    EStateM.Result Fault (MethodDraft × ConstantPool) (Instruction Handle) → Prop
  | entry (hh : ∃ range ∈ d.handlers, range.handler = h) :
    Removal d pool h (.error (.stillTargeted [h]) (d, pool))
  | stale (hh : ¬ ∃ range ∈ d.handlers, range.handler = h) (hc : ¬ d.instructions.contains h) :
    Removal d pool h (.error (.staleHandle h) (d, pool))
  | targeted {others : List Handle} (hc : d.instructions.contains h)
    (ht : ∃ g i, (g, i) ∈ d.instructions.toList ∧ g ≠ h ∧ h ∈ i.targets)
    (ho : ∀ g, g ∈ others ↔ ∃ i, (g, i) ∈ d.instructions.toList ∧ g ≠ h ∧ h ∈ i.targets) :
    Removal d pool h (.error (.stillTargeted others) (d, pool))
  | removed {i : Instruction Handle} {e : MethodDraft}
    (hh : ¬ ∃ range ∈ d.handlers, range.handler = h) (hc : d.instructions.contains h)
    (ht : ¬ ∃ g i, (g, i) ∈ d.instructions.toList ∧ g ≠ h ∧ h ∈ i.targets) :
    Removal d pool h (.ok i (e, pool))

theorem removal (hs : d.instructions.Linked) :
    Removal d pool h (MethodM.removeInstruction h (d, pool)) := by
  rw [MethodM.removeInstruction, DraftM.draft_bind]
  dsimp only
  by_cases hany : d.handlers.any fun range => range.handler = h
  · rw [if_pos hany]
    obtain ⟨range, hm, he⟩ := List.any_eq_true.mp hany
    exact .entry ⟨range, hm, of_decide_eq_true he⟩
  · have hh : ¬ ∃ range ∈ d.handlers, range.handler = h := by
      rintro ⟨range, hm, he⟩
      exact hany (List.any_eq_true.mpr ⟨range, hm, decide_eq_true he⟩)
    rw [if_neg hany]
    by_cases hc : d.instructions.contains h
    · rcases remove_of_contains hs hc with ⟨⟨r, hr⟩, hnone⟩ | ⟨hr, hsome⟩
      · rw [EStateM.bind_of_ok (MethodM.onInstructions_eq_ok.mpr ⟨r.2, hr, rfl⟩)]
        refine .removed hh hc ?_
        rintro ⟨g, i, hg⟩
        have hm := mem_others.mpr ⟨i, hg⟩
        rw [hnone] at hm
        cases hm
      · rw [EStateM.bind_of_error (MethodM.onInstructions_eq_error hr)]
        obtain ⟨g, hg⟩ := List.exists_mem_of_ne_nil _ hsome
        obtain ⟨i, hi⟩ := mem_others.mp hg
        exact .targeted hc ⟨g, i, hi⟩ fun _ => mem_others
    · have hr := remove_of_not_contains hc
      rw [EStateM.bind_of_error (MethodM.onInstructions_eq_error hr)]
      exact .stale hh hc

/-- Removing an instruction. It is refused if a handler begins at the instruction or another one
goes to it, and then nothing changes. Otherwise everything that the tables say of the other
instructions is as it was. -/
theorem removeInstruction_outcome (hd : Reachable pool d)
    (hr : ∀ r ∈ d.ranges, d.instructions.Spans r.1 r.2)
    (hl : ∀ g ∈ d.instructions.handles, (linesOf d.lines.toList g).length ≤ 1) (h : Handle) :
    Removal d pool h (MethodM.removeInstruction h (d, pool)) ∧
    (∀ i e pool', MethodM.removeInstruction h (d, pool) = .ok i (e, pool') →
      pool' = pool ∧ d.instructions.get? h = some i ∧ d.Without h e) ∧
    (∀ fault state, MethodM.removeInstruction h (d, pool) = .error fault state →
      state = (d, pool)) ∧
    ((∃ others state, MethodM.removeInstruction h (d, pool) =
        .error (.stillTargeted others) state) ↔
      (∃ range ∈ d.handlers, range.handler = h) ∨ d.instructions.contains h ∧
        ∃ g i, (g, i) ∈ d.instructions.toList ∧ g ≠ h ∧ h ∈ i.targets) := by
  have hs := hd.kept.2.linked
  have hremoval : Removal d pool h (MethodM.removeInstruction h (d, pool)) := removal hs
  refine ⟨hremoval, fun i e pool' hok => ?_, fun fault state hf => ?_, ?_⟩
  · exact ⟨(removeInstruction_eq_ok hok).1, without_of_removeInstruction hs hr hl hok⟩
  · have hdraft : state.1 = d := MethodM.atomic_removeInstruction h hf
    have hpool : state.2 = pool :=
      (MethodM.maintains_removeInstruction (P := (· = pool)) h).of_error hf rfl
    rw [← hdraft, ← hpool]
  · generalize MethodM.removeInstruction h (d, pool) = result at hremoval
    cases hremoval with
    | entry hh => exact iff_of_true ⟨_, _, rfl⟩ (.inl hh)
    | stale hh hc =>
      refine iff_of_false ?_ fun ho => ho.elim hh fun ho => hc ho.1
      rintro ⟨_, _, he⟩
      cases he
    | targeted hc ht _ => exact iff_of_true ⟨_, _, rfl⟩ (.inr ⟨hc, ht⟩)
    | removed hh _ ht =>
      refine iff_of_false ?_ fun ho => ho.elim hh fun ho => ht ho.2
      rintro ⟨_, _, he⟩
      cases he

/-- Two instructions, a range of both which the second one handles, and a line of the first one. -/
def guarded : MethodDraft := { pair ⟨0, 0⟩ ⟨1, 0⟩ ⟨1, 0⟩ with lines := #[(⟨0, 0⟩, 7)] }

theorem removeInstruction_outcome_guarded :
    ∃ e, MethodM.removeInstruction ⟨0, 0⟩ (guarded, .empty) =
      .ok (.simple .returnVoid) (e, .empty) ∧ guarded.Without ⟨0, 0⟩ e := by
  obtain ⟨hfirst, hsecond⟩ := twoReturns_position?
  have hpair : Reachable .empty (pair ⟨0, 0⟩ ⟨1, 0⟩ ⟨1, 0⟩) := pair_reachable rfl rfl rfl
  have hline : (Act.addLine ⟨0, 0⟩ 7).perform (pair ⟨0, 0⟩ ⟨1, 0⟩ ⟨1, 0⟩, .empty) =
      .ok () (guarded, .empty) := rfl
  have hd : Reachable .empty guarded := hpair.perform hline
  have hr : ∀ r ∈ guarded.ranges, guarded.instructions.Spans r.1 r.2 := by
    intro r hr
    cases List.mem_singleton.mp hr
    exact ⟨0, 1, hfirst, hsecond, by decide⟩
  have hl : ∀ g ∈ guarded.instructions.handles, (linesOf guarded.lines.toList g).length ≤ 1 := by
    decide +kernel
  obtain ⟨hremoval, hok, -⟩ := removeInstruction_outcome hd hr hl ⟨0, 0⟩
  have hcontains : guarded.instructions.contains ⟨0, 0⟩ := rfl
  have hfree : ¬ ∃ g i, (g, i) ∈ guarded.instructions.toList ∧ g ≠ ⟨0, 0⟩ ∧
      ⟨0, 0⟩ ∈ i.targets := by
    rintro ⟨g, i, hm, -, ht⟩
    have htargets : ∀ item ∈ guarded.instructions.toList, item.2.targets = [] := by decide +kernel
    rw [htargets _ hm] at ht
    cases ht
  generalize he : MethodM.removeInstruction ⟨0, 0⟩ (guarded, .empty) = result at hremoval
  cases hremoval with
  | entry hh => exact absurd hh (by decide)
  | stale _ hc => exact absurd hcontains hc
  | targeted _ ht _ => exact absurd ht hfree
  | @removed i e =>
    obtain ⟨-, hget, hwithout⟩ := hok i e _ he
    have hi : guarded.instructions.get? ⟨0, 0⟩ = some (.simple .returnVoid) := by decide +kernel
    cases hi.symm.trans hget
    exact ⟨e, rfl, hwithout⟩

end MethodDraft

end Classfile
