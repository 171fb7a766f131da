import Classfile.Proofs.Arena.Jumps

/-!
An instruction that others lead to cannot be taken out, and they are named. Once all of them have
been sent elsewhere it can. The arena looks for them along its links, and sends them elsewhere as
they lie in memory.
-/
namespace Classfile

namespace Instruction

variable {τ σ ρ : Type} {i : Instruction τ}

theorem mapTargets_mapTargets (f : τ → σ) (g : σ → ρ) :
    (i.mapTargets f).mapTargets g = i.mapTargets (g ∘ f) := by
  cases i with
  | lookupSwitch default cases => simp [mapTargets]
  | tableSwitch default low cases => simp [mapTargets]
  | _ => rfl

end Instruction

namespace ArenaM

variable {α β : Type} {x : ArenaM α} {a : Arena} {r : Except Fault β}
  {post : α → Arena → β → Prop} {fault : Fault}

theorem Refines.refused_iff (h : Refines x a r post) :
    x a = .error (.refused fault) a ↔ r = .error fault := by
  cases r with
  | ok y =>
    obtain ⟨v, b, hv, -⟩ := h
    simp [hv]
  | error cause =>
    have hc : x a = .error (.refused cause) a := h
    simp [hc]

theorem Refines.ok_iff (h : Refines x a r post) : (∃ v b, x a = .ok v b) ↔ ∃ y, r = .ok y := by
  cases r with
  | ok y =>
    obtain ⟨v, b, hv, -⟩ := h
    exact ⟨fun _ => ⟨y, rfl⟩, fun _ => ⟨v, b, hv⟩⟩
  | error cause =>
    have hc : x a = .error (.refused cause) a := h
    simp [hc]

end ArenaM

namespace InstructionSeq

variable {s t : InstructionSeq} {h old new : Handle} {xs ys : List (Handle × Instruction Handle)}
  {make : ArenaM Unit} {start : InstructionSeq} {edits : List Edit}

/-- An instruction has a target. -/
def Leads (xs : List (Handle × Instruction Handle)) (g target : Handle) : Prop :=
  ∃ i, (g, i) ∈ xs ∧ target ∈ i.targets

/-- The other instructions that lead to one, in their order. -/
structure Dependents (xs : List (Handle × Instruction Handle)) (h : Handle)
    (others : List Handle) : Prop where
  ordered : others.Sublist (xs.map (·.1))
  mem : ∀ g, g ∈ others ↔ g ≠ h ∧ Leads xs g h

/-- An instruction is taken out unless others lead to it. If they do, this is refused, and they are
named. -/
structure Severable (xs : List (Handle × Instruction Handle)) (h : Handle)
    (refused : List Handle → Prop) (done : Prop) : Prop where
  refused_iff : (∃ others, refused others) ↔ ∃ g, g ≠ h ∧ Leads xs g h
  named : ∀ others, refused others → Dependents xs h others
  done_iff : done ↔ ∀ g, Leads xs g h → g = h

/-- An instruction before and after what led to `old` was sent to `new`. -/
structure Diverted (old new : Handle) (x y : Handle × Instruction Handle) : Prop where
  handle : y.1 = x.1
  shape : (y.2.mapTargets fun _ => ()) = x.2.mapTargets fun _ => ()
  targets : y.2.targets = x.2.targets.map fun t => if t = old then new else t

/-- All instructions before and after, with the number of targets that have changed. -/
structure Redirected (xs : List (Handle × Instruction Handle)) (old new : Handle) (count : Nat)
    (ys : List (Handle × Instruction Handle)) : Prop where
  count : count = (xs.flatMap (·.2.targets)).count old
  each : List.Forall₂ (Diverted old new) xs ys
  gone : ∀ g, ¬ Leads ys g old

theorem dependents_others : Dependents s.toList h ((s.targeters h).filter (· ≠ h)) where
  ordered := List.filter_sublist.trans (List.filter_sublist.map _)
  mem g := by
    rw [mem_others]
    constructor
    · rintro ⟨i, hi, hne, ht⟩
      exact ⟨hne, i, hi, ht⟩
    · rintro ⟨hne, i, hi, ht⟩
      exact ⟨i, hi, hne, ht⟩

theorem Dependents.eq_nil_iff {others : List Handle} (hd : Dependents xs h others) :
    others = [] ↔ ∀ g, Leads xs g h → g = h := by
  rw [List.eq_nil_iff_forall_not_mem]
  refine forall_congr' fun g => ?_
  rw [hd.mem, not_and', not_not]

theorem severable_remove (hs : s.Linked) (hc : s.contains h) :
    Severable s.toList h (fun others => s.remove h = .error (.stillTargeted others))
      (∃ r, s.remove h = .ok r) := by
  have hd := dependents_others (s := s) (h := h)
  have hex : (∃ g, g ≠ h ∧ Leads s.toList g h) ↔ ¬ ∀ g, Leads s.toList g h → g = h := by
    simp only [not_forall, exists_prop, and_comm]
  rw [← hd.eq_nil_iff] at hex
  rcases remove_of_contains hs hc with ⟨⟨r, hr⟩, ho⟩ | ⟨hr, ho⟩
  · refine ⟨?_, ?_, ?_⟩
    · exact iff_of_false (by simp [hr]) (mt hex.mp (not_not.mpr ho))
    · simp [hr]
    · exact iff_of_true ⟨r, hr⟩ (hd.eq_nil_iff.mp ho)
  · refine ⟨?_, ?_, ?_⟩
    · exact iff_of_true ⟨_, hr⟩ (hex.mpr ho)
    · intro others he
      rw [hr] at he
      cases he
      exact hd
    · refine iff_of_false ?_ (mt hd.eq_nil_iff.mpr ho)
      simp [hr]

theorem Severable.congr {refused refused' : List Handle → Prop} {done done' : Prop}
    (hs : Severable xs h refused done) (hr : ∀ others, refused' others ↔ refused others)
    (hd : done' ↔ done) : Severable xs h refused' done' where
  refused_iff := (exists_congr hr).trans hs.refused_iff
  named others ho := hs.named others ((hr others).mp ho)
  done_iff := hd.trans hs.done_iff

theorem diverted_mapTargets (item : Handle × Instruction Handle) :
    Diverted old new item (item.1, item.2.mapTargets fun t => if t = old then new else t) where
  handle := rfl
  shape := Instruction.mapTargets_mapTargets _ _
  targets := Instruction.targets_mapTargets _

theorem Diverted.notMem {x y : Handle × Instruction Handle} (hd : Diverted old new x y)
    (hne : new ≠ old) : old ∉ y.2.targets := by
  rw [hd.targets, List.mem_map]
  rintro ⟨t, -, ht⟩
  split at ht
  · exact hne ht
  · rename_i ho
    exact ho ht

theorem redirected_redirect (hc : s.contains new) (hne : new ≠ old) :
    ∃ n t, s.redirect old new = .ok (n, t) ∧ Redirected s.toList old new n t.toList := by
  have he : s.redirect old new = .ok (s.countTargets old, { s with
      items := s.items.map fun item =>
        (item.1, item.2.mapTargets fun t => if t = old then new else t) }) := by
    rw [redirect, checkLive, if_pos hc]
    rfl
  refine ⟨_, _, he, rfl, ?_, ?_⟩
  · rw [toList, toList, Array.toList_map, List.forall₂_map_right_iff, List.forall₂_same]
    exact fun item _ => diverted_mapTargets item
  · rintro g ⟨i, hi, ht⟩
    rw [toList, Array.toList_map] at hi
    obtain ⟨item, -, hitem⟩ := List.mem_map.mp hi
    cases hitem
    exact (diverted_mapTargets item).notMem hne ht

/-- Where nothing leads any more, an instruction can be taken out. -/
theorem remove_of_redirected {n : Nat} (hs : s.Linked) (he : s.redirect old new = .ok (n, t))
    (hr : Redirected xs old new n t.toList) (hc : s.contains old) : ∃ r, t.remove old = .ok r := by
  have hslots : t.contains old := by
    obtain ⟨-, ht⟩ := redirect_eq_ok he
    cases ht
    exact hc
  refine (severable_remove (linked_redirect hs he) hslots).done_iff.mpr fun g hg => ?_
  exact absurd hg (hr.gone g)

/-- In every sequence that edits lead to, an instruction can be taken out unless others lead to it,
and then they are named. Sending to another instruction what leads to it counts every target that
changes, leaves all the rest as it is, and lets it be taken out. -/
theorem removed_or_redirected (ho : Origin make start)
    (hslots : (start.run edits).slots.size < 2 ^ 32) :
    (∀ h, (start.run edits).contains h → Severable (start.run edits).toList h
      (fun others => (start.run edits).remove h = .error (.stillTargeted others))
      (∃ r, (start.run edits).remove h = .ok r)) ∧
    (∀ old new, (start.run edits).contains new → new ≠ old → ∃ count t,
      (start.run edits).redirect old new = .ok (count, t) ∧
        Redirected (start.run edits).toList old new count t.toList ∧
          ((start.run edits).contains old → ∃ r, t.remove old = .ok r)) ∧
    ∃ a b, make .empty = .ok () a ∧ a.run? edits = some b ∧ b.Shows (start.run edits).toList ∧
      (∀ h, b.contains h → Severable (start.run edits).toList h
        (fun others => ArenaM.remove h b = .error (.refused (.stillTargeted others)) b)
        (∃ i c, ArenaM.remove h b = .ok i c)) ∧
      ∀ old new, b.contains new → new ≠ old → ∃ count c ys,
        ArenaM.redirect old new b = .ok count c ∧ c.Shows ys ∧
          Redirected (start.run edits).toList old new count ys ∧
            (b.contains old → ∃ i d, ArenaM.remove old c = .ok i d) := by
  have hstart : start.slots.size ≤ UInt32.size :=
    Nat.le_of_lt (Nat.lt_of_le_of_lt size_le_run hslots)
  obtain ⟨hlinked, a, hmake, hrep⟩ := ho.represents hstart
  obtain ⟨b, hrun, hb, hl⟩ := hrep.run? hlinked hslots
  refine ⟨fun h => severable_remove hl, ?_, a, b, hmake, hrun, hb.shows hl, ?_, ?_⟩
  · intro old new hc hne
    obtain ⟨n, t, he, hr⟩ := redirected_redirect hc hne
    exact ⟨n, t, he, hr, remove_of_redirected hl he hr⟩
  · intro h hc
    rw [hb.contains_eq] at hc
    have hremove := ArenaM.refines_remove (h := h) hb hl
    exact (severable_remove hl hc).congr (fun others => hremove.refused_iff) hremove.ok_iff
  · intro old new hc hne
    rw [hb.contains_eq] at hc
    obtain ⟨n, t, he, hr⟩ := redirected_redirect hc hne
    -- The second removal is that of the sequence which the arena holds once it has redirected.
    have hredirect : ArenaM.Refines (ArenaM.redirect old new) b
        ((start.run edits).redirect old new) ArenaM.Follows := ArenaM.refines_redirect hb hl
    rw [he] at hredirect
    obtain ⟨v, c, hv, rfl, hrc⟩ := hredirect
    have hlt := linked_redirect hl he
    refine ⟨v, c, t.toList, hv, hrc.shows hlt, hr, fun hold => ?_⟩
    rw [hb.contains_eq] at hold
    exact (ArenaM.refines_remove hrc hlt).ok_iff.mpr (remove_of_redirected hl he hr hold)

/-- A switch goes to the first instruction with each of its targets, and a jump goes to itself. -/
def fan : List Edit := [
  .append (.simple .nop), .append (.tableSwitch ⟨0, 0⟩ 5 [⟨0, 0⟩, ⟨0, 0⟩]),
  .append (.simple .returnVoid), .append (.jump .goto ⟨0, 0⟩), .setTarget ⟨3, 0⟩ ⟨3, 0⟩]

theorem removed_or_redirected_fan : ∃ a, Arena.empty.run? fan = some a ∧
    (∃ i b, ArenaM.remove ⟨3, 0⟩ a = .ok i b) ∧
    (∃ others, ArenaM.remove ⟨0, 0⟩ a = .error (.refused (.stillTargeted others)) a) ∧
    ∃ b i c, ArenaM.redirect ⟨0, 0⟩ ⟨2, 0⟩ a = .ok 3 b ∧ ArenaM.remove ⟨0, 0⟩ b = .ok i c := by
  have hslots : (empty.run fan).slots.size < 2 ^ 32 := by decide +kernel
  have hl : (empty.run fan).toList = [(⟨0, 0⟩, .simple .nop),
      (⟨1, 0⟩, .tableSwitch ⟨0, 0⟩ 5 [⟨0, 0⟩, ⟨0, 0⟩]), (⟨2, 0⟩, .simple .returnVoid),
      (⟨3, 0⟩, .jump .goto ⟨3, 0⟩)] := by decide +kernel
  obtain ⟨-, -, a, b, hmake, hrun, hshows, hremove, hredirect⟩ :=
    removed_or_redirected .empty hslots
  cases hmake
  rw [hl] at hshows hremove hredirect
  have hc : ∀ h, b.contains h ↔ h ∈ [(⟨0, 0⟩ : Handle), ⟨1, 0⟩, ⟨2, 0⟩, ⟨3, 0⟩] := hshows.contains
  obtain ⟨count, c, ys, hcount, -, hr, hold⟩ := hredirect ⟨0, 0⟩ ⟨2, 0⟩ ((hc _).mpr (by decide))
    (by decide)
  obtain ⟨i, d, hd⟩ := hold ((hc _).mpr (by decide))
  have hthree : count = 3 := hr.count
  refine ⟨b, hrun, ?_, ?_, c, i, d, hthree ▸ hcount, hd⟩
  · refine (hremove ⟨3, 0⟩ ((hc _).mpr (by decide))).done_iff.mpr ?_
    rintro g ⟨i, hi, ht⟩
    simp only [List.mem_cons, Prod.mk.injEq, List.not_mem_nil, or_false] at hi
    rcases hi with ⟨-, rfl⟩ | ⟨-, rfl⟩ | ⟨-, rfl⟩ | ⟨rfl, -⟩
    · cases ht
    · simp [Instruction.targets] at ht
    · cases ht
    · rfl
  · refine (hremove ⟨0, 0⟩ ((hc _).mpr (by decide))).refused_iff.mpr ?_
    exact ⟨⟨1, 0⟩, by decide, .tableSwitch ⟨0, 0⟩ 5 [⟨0, 0⟩, ⟨0, 0⟩], by simp,
      List.mem_cons_self⟩

end InstructionSeq

end Classfile
