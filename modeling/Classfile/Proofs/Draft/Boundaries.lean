import Classfile.Proofs.Code.Acceptance
import Classfile.Proofs.Draft.Buildable
import Classfile.Proofs.Draft.Reachable
import Classfile.Proofs.Draft.Upkeep

/-!
The offsets in the tables that a method is built with. All of them are where an instruction starts,
or, at the end of a range, where the code ends. That a range ends behind where it begins is another
matter. It does if the range was in order, and nobody has checked that.
-/
namespace Classfile

open InstructionSeq ConstantPool

variable {pool pool' : ConstantPool} {d : MethodDraft} {s : InstructionSeq}
  {wide : Std.HashSet Handle} {bytes : List UInt8} {h : Handle} {n m : Nat}

namespace InstructionSeq

/-- In the layout of the sequence an instruction starts at the offset. -/
def StartsAt (s : InstructionSeq) (offset : Nat) : Prop :=
  ∃ h ∈ s.handles, s.layout.offsetOf? h = some offset

/-- An instruction starts at `start`, and at `stop` another one does, or the code ends. -/
structure Bounded (s : InstructionSeq) (length start stop : Nat) : Prop where
  begins : s.StartsAt start
  ends : s.StartsAt stop ∨ stop = length
  within : stop ≤ length

namespace Written

theorem startsAt (hw : s.Written wide bytes) (hn : n < s.toList.length) :
    s.StartsAt (s.startAt wide n) := by
  have hi : s.toList[n]? = some (s.toList[n].1, s.toList[n].2) := List.getElem?_eq_getElem hn
  have hp := position?_of_getElem? hw.linked hi
  exact ⟨s.toList[n].1, List.mem_map_of_mem (List.getElem_mem hn),
    hw.layout ▸ offsetOf?_of_position? hw.linked hp⟩

theorem bounded (hw : s.Written wide bytes) (hn : n < s.toList.length)
    (hm : m ≤ s.toList.length) :
    s.Bounded bytes.length (s.startAt wide n) (s.startAt wide m) := by
  refine ⟨hw.startsAt hn, ?_, hw.length ▸ startAt_le hm (Nat.le_refl _)⟩
  rcases Nat.eq_or_lt_of_le hm with rfl | hm
  · exact .inr hw.length.symm
  · exact .inl (hw.startsAt hm)

end Written

/-- What follows the last instruction of a range that is in order is behind the first one. -/
theorem startAt_lt_iff {first last : Handle} (hf : s.position? first = some n)
    (hl : s.position? last = some m) :
    s.startAt wide n < s.startAt wide (m + 1) ↔ s.Spans first last := by
  have hn : n < s.toList.length := Written.position_lt hf
  have hm : m < s.toList.length := Written.position_lt hl
  constructor
  · intro hlt
    refine ⟨n, m, hf, hl, Nat.le_of_not_lt fun hmn => ?_⟩
    have hle : s.startAt wide (m + 1) ≤ s.startAt wide n := startAt_le hmn (Nat.le_of_lt hn)
    omega
  · rintro ⟨k, l, hk, hl', hkl⟩
    cases hf.symm.trans hk
    cases hl.symm.trans hl'
    exact startAt_lt (Nat.lt_succ_of_le hkl) hm

end InstructionSeq

namespace MethodDraft

/-! ### One entry of a table -/

variable {range : GuardedRange} {entry : ExceptionHandler} {scope : VariableScope}
  {stored : VariableRange}

theorem exists_position_of_startOffset {pc : UInt16} (hs : s.Linked)
    (h' : startOffset s.layout h = .ok pc) : ∃ n, s.position? h = some n := by
  by_cases hh : h ∈ s.handles
  · exact exists_position? hs ((hs.live h).mpr hh)
  · rw [startOffset_of_notMem hh] at h'
    cases h'

theorem exists_position_of_stopOffset {pc : UInt16} (hs : s.Linked)
    (h' : stopOffset s.layout h = .ok pc) : ∃ n, s.position? h = some n := by
  by_cases hh : h ∈ s.handles
  · exact exists_position? hs ((hs.live h).mpr hh)
  · rw [stopOffset_of_notMem hh] at h'
    cases h'

/-- The entry is that of a range, whose offsets are in order if the range is. -/
structure HandlerBounded (s : InstructionSeq) (length : Nat) (range : GuardedRange)
    (entry : ExceptionHandler) : Prop where
  bounded : s.Bounded length entry.start.toNat entry.stop.toNat
  handler : s.StartsAt entry.handler.toNat
  proper : entry.start < entry.stop ↔ s.Spans range.first range.last

theorem handlerBounded (hw : s.Written wide bytes) (h : storedHandler s.layout range = .ok entry) :
    HandlerBounded s bytes.length range entry := by
  obtain ⟨start, hfirst, h'⟩ := Except.bind_eq_ok.mp h
  obtain ⟨stop, hlast, h'⟩ := Except.bind_eq_ok.mp h'
  obtain ⟨pc, hhandler, -⟩ := Except.map_eq_ok.mp h'
  obtain ⟨n, hf⟩ := exists_position_of_startOffset hw.linked hfirst
  obtain ⟨m, hl⟩ := exists_position_of_stopOffset hw.linked hlast
  obtain ⟨k, hk⟩ := exists_position_of_startOffset hw.linked hhandler
  have hn := Written.position_lt hf
  have hm := Written.position_lt hl
  have hkn := Written.position_lt hk
  rw [hw.storedHandler_eq hf hl hk] at h
  cases h
  have hstart := hw.toNat_startAt (Nat.le_of_lt hn)
  have hstop := hw.toNat_startAt hm
  refine ⟨?_, ?_, ?_⟩
  · rw [hstart, hstop]
    exact hw.bounded hn hm
  · rw [hw.toNat_startAt (Nat.le_of_lt hkn)]
    exact hw.startsAt hkn
  · rw [UInt16.lt_iff_toNat_lt, hstart, hstop]
    exact startAt_lt_iff hf hl

/-- The entry is that of a scope, and has a length if the scope is in order. -/
structure ScopeBounded (s : InstructionSeq) (length : Nat) (scope : VariableScope)
    (entry : VariableRange) : Prop where
  bounded : s.Bounded length entry.start.toNat (entry.start.toNat + entry.length.toNat)
  proper : 0 < entry.length ↔ s.Spans scope.first scope.last

theorem scopeBounded (hw : s.Written wide bytes) (h : storedScope s.layout scope = .ok stored) :
    ScopeBounded s bytes.length scope stored := by
  obtain ⟨start, hfirst, h'⟩ := Except.bind_eq_ok.mp h
  obtain ⟨stop, hlast, -⟩ := Except.bind_eq_ok.mp h'
  obtain ⟨n, hf⟩ := exists_position_of_startOffset hw.linked hfirst
  obtain ⟨m, hl⟩ := exists_position_of_stopOffset hw.linked hlast
  have hn := Written.position_lt hf
  have hm : m + 1 ≤ s.toList.length := Written.position_lt hl
  rw [hw.storedScope_eq hf hl] at h
  cases h
  have hstart := hw.toNat_startAt (Nat.le_of_lt hn)
  have hlen := hw.toNat_sub hm (s.startAt wide n)
  constructor
  · rw [hstart, hlen]
    rcases Nat.le_total (s.startAt wide n) (s.startAt wide (m + 1)) with hle | hle
    · rw [Nat.add_sub_cancel' hle]
      exact hw.bounded hn hm
    · -- The scope ends before it begins, and has no length.
      rw [Nat.sub_eq_zero_of_le hle]
      exact hw.bounded hn (Nat.le_of_lt hn)
  · rw [UInt16.lt_iff_toNat_lt, hlen, UInt16.toNat_zero, Nat.sub_pos_iff_lt]
    exact startAt_lt_iff hf hl

/-! ### All tables -/

variable {body : CodeBody} {r : Method}

/-- The tables in the stored code are those of the draft, and their offsets are bounded. -/
structure TablesBounded (pool : ConstantPool) (d : MethodDraft) (body : CodeBody) : Prop where
  code : d.instructions.encode = .ok body.code
  handlers : List.Forall₂ (HandlerBounded d.instructions body.code.length) d.handlers body.handlers
  scopes : ∀ a ∈ body.attributes, ∀ p, pool.payload? LocalVariableTable a = .ok (some p) →
    List.Forall₂ (ScopeBounded d.instructions body.code.length) d.scopes p.ranges
  typeScopes : ∀ a ∈ body.attributes, ∀ p, pool.payload? LocalVariableTypeTable a = .ok (some p) →
    List.Forall₂ (ScopeBounded d.instructions body.code.length) d.typeScopes p.ranges

/-- What holds a payload is apart from other names than its own. -/
theorem apart_of_holdsUnless {α : Type} [Payload α] {p : α} {skip : Bool} {names : List String}
    {attributes : List Attribute} (h : Attribute.HoldsUnless pool skip p attributes)
    (hn : Payload.name α ∉ names) : ∀ a ∈ attributes, a.Apart pool names :=
  fun _ ha => ⟨_, h.name ha, hn⟩

/-- Of the attributes with tables only one has the name, and the payload is what it holds. -/
theorem eq_of_payload? {α : Type} [Payload α] {p q : α} {skip : Bool} {a : Attribute}
    {attributes others : List Attribute} (hq : Attribute.HoldsUnless pool skip q attributes)
    (hy : ∀ bytes, Payload.write q = .ok bytes → (Payload.read : Reader α).Yields bytes q)
    (ho : ∀ a ∈ others, a.Apart pool [Payload.name α]) (ha : a ∈ attributes ∨ a ∈ others)
    (hp : pool.payload? α a = .ok (some p)) : p = q := by
  rcases ha with ha | ha
  · have hread := payload?_of_yields (hq.name ha) (hy _ (hq.info ha))
    cases hp.symm.trans hread
    rfl
  · have hnone : pool.payload? α a = .ok none := (ho a ha).payload? List.mem_cons_self
    cases hp.symm.trans hnone

theorem tablesBounded_of_storesCode (hs : StoresCode pool d body) (hk : Kept pool d) :
    TablesBounded pool d body := by
  obtain ⟨lines, scopes, typeScopes, xs, ys, zs, -, hscopes, htypes, hx, hy, hz, hattr⟩ :=
    hs.attributes
  obtain ⟨wide, hw⟩ := exists_written hk.linked hs.code
  have hothers : ∀ {names}, (∀ name ∈ names, name ∈ tableNames) →
      ∀ a ∈ d.codeAttributes, a.Apart pool names := fun hn a ha =>
    (hk.codeAttributes a ha).2.mono hn
  refine ⟨hs.code, (Except.mapM_eq_ok.mp hs.handlers).imp fun _ _ => handlerBounded hw,
    fun a ha p hp => ?_, fun a ha p hp => ?_⟩
  · have hapart : ∀ b ∈ xs ++ zs ++ d.codeAttributes,
        b.Apart pool [Payload.name LocalVariableTable] := by
      rw [List.forall_mem_append, List.forall_mem_append]
      exact ⟨⟨apart_of_holdsUnless hx (by decide), apart_of_holdsUnless hz (by decide)⟩,
        hothers (by simp [tableNames])⟩
    have hmem : a ∈ ys ∨ a ∈ xs ++ zs ++ d.codeAttributes := by
      rw [hattr] at ha
      simp only [List.mem_append] at ha ⊢
      tauto
    rw [eq_of_payload? hy (fun _ => LocalVariableTable.yields_read) hapart hmem hp]
    exact (Except.mapM_eq_ok.mp hscopes).imp fun _ _ => scopeBounded hw
  · have hapart : ∀ b ∈ xs ++ ys ++ d.codeAttributes,
        b.Apart pool [Payload.name LocalVariableTypeTable] := by
      rw [List.forall_mem_append, List.forall_mem_append]
      exact ⟨⟨apart_of_holdsUnless hx (by decide), apart_of_holdsUnless hy (by decide)⟩,
        hothers (by simp [tableNames])⟩
    have hmem : a ∈ zs ∨ a ∈ xs ++ ys ++ d.codeAttributes := by
      rw [hattr] at ha
      simp only [List.mem_append] at ha ⊢
      tauto
    rw [eq_of_payload? hz (fun _ => LocalVariableTypeTable.yields_read) hapart hmem hp]
    exact (Except.mapM_eq_ok.mp htypes).imp fun _ _ => scopeBounded hw

/-- The code comes first among the attributes of a built method. -/
theorem exists_code_of_build (hp : pool.Faithful) (hi : d.instructions.isEmpty = false)
    (h : d.build pool = .ok r pool') : pool.Grows pool' ∧ ∃ a body rest,
      r.attributes = a :: rest ∧ a.Holds pool' body ∧ StoresCode pool' d body := by
  obtain ⟨-, hg, hs⟩ := stores_of_build hp h
  obtain ⟨code, exceptions, annotations, parameterAnnotations, hc, -, -, -, hr⟩ := hs.attributes
  rw [StoresInstructions, if_neg (by rw [hi]; exact Bool.false_ne_true)] at hc
  obtain ⟨a, body, rfl, ha, hbody⟩ := hc
  exact ⟨hg, a, body, _, by simpa using hr, ha, hbody⟩

/-- A method that is built has code if there are instructions. Every offset in the tables of the
code is where an instruction starts, or where the code ends. The ranges in them are not empty if
those of the draft are in order, and only then. -/
theorem tablesBounded_build (hd : Reachable pool d) (hi : d.instructions.isEmpty = false)
    (h : d.build pool = .ok r pool') : ∃ a body rest, r.attributes = a :: rest ∧
      a.Holds pool' body ∧ TablesBounded pool' d body := by
  obtain ⟨hp, hk⟩ := hd.kept
  obtain ⟨hg, a, body, rest, hr, ha, hbody⟩ := exists_code_of_build hp.faithful hi h
  exact ⟨a, body, rest, hr, ha, tablesBounded_of_storesCode hbody (hk.grows hg)⟩

/-! ### A range that nobody has checked -/

def twoReturns : InstructionSeq := ofList [.simple .returnVoid, .simple .returnVoid]

theorem twoReturns_reachable : twoReturns.Reachable :=
  reachable_ofList (by decide) (by simp [Instruction.targets])

theorem twoReturns_position? : twoReturns.position? ⟨0, 0⟩ = some 0 ∧
    twoReturns.position? ⟨1, 0⟩ = some 1 :=
  ⟨position?_of_getElem? twoReturns_reachable.linked rfl,
    position?_of_getElem? twoReturns_reachable.linked rfl⟩

theorem twoReturns_encode : ∃ code, twoReturns.encode = .ok code :=
  exists_encode_of_targetless twoReturns_reachable.linked (by decide) (by decide)

/-- Two instructions and a range of them that is handled. -/
def pair (first last handler : Handle) : MethodDraft :=
  { blank with instructions := twoReturns, handlers := [⟨first, last, handler, none⟩] }

variable {first last handler : Handle}

theorem pair_reachable (hf : twoReturns.contains first) (hl : twoReturns.contains last)
    (hh : twoReturns.contains handler) : Reachable .empty (pair first last handler) := by
  have hlive : { blank with instructions := twoReturns }.checkLive [first, last, handler] =
      .ok () := checkLive_eq_ok.mpr (by simpa using ⟨hf, hl, hh⟩)
  have hd : Reachable .empty { blank with instructions := twoReturns } :=
    .assignInstructions (.make .empty make_blank) twoReturns_reachable
  have hadd : (Act.addHandler ⟨first, last, handler, none⟩).perform
      ({ blank with instructions := twoReturns }, .empty) =
        .ok () (pair first last handler, .empty) := MethodM.addHandler_eq_ok.mpr ⟨hlive, rfl⟩
  exact hd.perform hadd

theorem pair_build (hf : twoReturns.contains first) (hl : twoReturns.contains last)
    (hh : twoReturns.contains handler) :
    ∃ r pool, (pair first last handler).build .empty = .ok r pool := by
  obtain ⟨hp, hk⟩ := (pair_reachable hf hl hh).kept
  obtain ⟨code, hcode⟩ := twoReturns_encode
  have hlive : (pair first last handler).TablesLive :=
    ⟨List.forall_mem_singleton.mpr ⟨hf, hl, hh⟩, nofun, nofun⟩
  have hcounts : (pair first last handler).CountsFit := by
    constructor <;> simp [pair, blank]
  exact exists_build hp.faithful hk hcode hlive hcounts (by decide)

/-- A range that ends before it begins is added, and the method is built with it. -/
theorem pair_build_backwards : ∃ (r : Method) (pool : ConstantPool) (a : Attribute) (body : CodeBody)
    (rest : List Attribute) (entry : ExceptionHandler),
    Reachable .empty (pair ⟨1, 0⟩ ⟨0, 0⟩ ⟨0, 0⟩) ∧
    (pair ⟨1, 0⟩ ⟨0, 0⟩ ⟨0, 0⟩).build .empty = .ok r pool ∧ r.attributes = a :: rest ∧
    a.Holds pool body ∧ body.handlers = [entry] ∧ ¬ entry.start < entry.stop := by
  obtain ⟨hfirst, hsecond⟩ := twoReturns_position?
  have hd : Reachable .empty (pair ⟨1, 0⟩ ⟨0, 0⟩ ⟨0, 0⟩) := pair_reachable rfl rfl rfl
  obtain ⟨r, pool, hr⟩ := @pair_build ⟨1, 0⟩ ⟨0, 0⟩ ⟨0, 0⟩ rfl rfl rfl
  obtain ⟨hp, hk⟩ := hd.kept
  obtain ⟨hg, a, body, rest, hattr, ha, hbody⟩ := exists_code_of_build hp.faithful rfl hr
  obtain ⟨entry, entries, hentry, hnil, he⟩ := List.forall₂_cons_left_iff.mp
    (tablesBounded_of_storesCode hbody (hk.grows hg)).handlers
  cases hnil
  refine ⟨r, pool, a, body, rest, entry, hd, hr, hattr, ha, he, fun hlt => ?_⟩
  obtain ⟨n, m, hn, hm, hle⟩ := hentry.proper.mp hlt
  cases hsecond.symm.trans hn
  cases hfirst.symm.trans hm
  cases hle

theorem tablesBounded_build_pair : ∃ (r : Method) (pool : ConstantPool) (a : Attribute)
    (body : CodeBody) (rest : List Attribute) (entry : ExceptionHandler),
    (pair ⟨0, 0⟩ ⟨1, 0⟩ ⟨0, 0⟩).build .empty = .ok r pool ∧ r.attributes = a :: rest ∧
    a.Holds pool body ∧ body.handlers = [entry] ∧ entry.start < entry.stop := by
  obtain ⟨hfirst, hsecond⟩ := twoReturns_position?
  have hd : Reachable .empty (pair ⟨0, 0⟩ ⟨1, 0⟩ ⟨0, 0⟩) := pair_reachable rfl rfl rfl
  obtain ⟨r, pool, hr⟩ := @pair_build ⟨0, 0⟩ ⟨1, 0⟩ ⟨0, 0⟩ rfl rfl rfl
  obtain ⟨a, body, rest, hattr, ha, hbody⟩ := tablesBounded_build hd rfl hr
  obtain ⟨entry, entries, hentry, hnil, he⟩ := List.forall₂_cons_left_iff.mp hbody.handlers
  cases hnil
  exact ⟨r, pool, a, body, rest, entry, hr, hattr, ha, he,
    hentry.proper.mpr ⟨0, 1, hfirst, hsecond, by decide⟩⟩

end MethodDraft

end Classfile
