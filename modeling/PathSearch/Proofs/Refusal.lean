import PathSearch.Proofs.Assembler
import PathSearch.Proofs.RegionMap

/-! # When an assembler refuses to finish

Statements are encoded first, then the entry is looked up, then the code and the data are mapped one
region after the other. A program is refused for the first of these that goes wrong, and a label may
be defined anywhere among the calls.
-/

namespace PathSearch

/-- Addresses next to each other. -/
structure Span where
  base : Word
  size : Nat

namespace Span

/-- The address behind the last one. -/
def limit (s : Span) : Nat := s.base.toNat + s.size

def range (s : Span) : Set Nat := Set.Ico s.base.toNat s.limit

def text (s : Span) : String := Text.hex s.base.toNat ++ ".." ++ Text.hex s.limit

/-- A span that can be mapped behind earlier ones. -/
structure Free (earlier : List Span) (s : Span) : Prop where
  nonempty : 0 < s.size
  inside : s.limit ≤ 2 ^ 64 - 1
  apart : ∀ t ∈ earlier, Disjoint t.range s.range

/-- Why a span cannot be mapped behind earlier ones. Of those that it meets the lowest is told. -/
inductive Fault (earlier : List Span) (s : Span) : String → Prop
  | empty (nothing : s.size = 0) :
      Fault earlier s ("Region at " ++ Text.hex s.base.toNat ++ " is empty")
  | wraps (nonempty : 0 < s.size) (beyond : 2 ^ 64 - 1 < s.limit) :
      Fault earlier s ("Region at " ++ Text.hex s.base.toNat ++ " wraps the address space")
  | overlaps {t : Span} (nonempty : 0 < s.size) (inside : s.limit ≤ 2 ^ 64 - 1) (ht : t ∈ earlier)
      (meets : ¬ Disjoint t.range s.range)
      (lowest : ∀ u ∈ earlier, ¬ Disjoint u.range s.range → t.base.toNat ≤ u.base.toNat) :
      Fault earlier s ("Region " ++ s.text ++ " overlaps " ++ t.text)

end Span

/-- The addresses of a region. -/
def Region.span (r : Region) : Span := ⟨r.base, r.bytes.size⟩

namespace Apart

variable {regions : List Region} {r s : Region}

/-- The search for a region that meets another finds the lowest one. -/
theorem find?_overlaps_iff (apart : Apart regions) :
    regions.find? (·.overlaps r) = some s ↔
      s ∈ regions ∧ s.overlaps r ∧ ∀ t ∈ regions, t.overlaps r → s.base.toNat ≤ t.base.toNat := by
  rw [List.find?_eq_some_iff_append]
  constructor
  · rintro ⟨meets, before, behind, rfl, first⟩
    refine ⟨by simp, meets, fun t ht meets' => ?_⟩
    have ordered := apart.base_ordered
    rw [List.pairwise_append, List.pairwise_cons] at ordered
    rcases List.mem_append.mp ht with ht | ht
    · have other := first t ht
      rw [meets'] at other
      cases other
    · rcases List.mem_cons.mp ht with rfl | ht
      · exact le_rfl
      · exact (ordered.2.1.1 t ht).le
  · rintro ⟨hs, meets, lowest⟩
    obtain ⟨before, behind, split⟩ := List.append_of_mem hs
    refine ⟨meets, before, behind, split, fun t ht => ?_⟩
    have ordered := apart.base_ordered
    rw [split, List.pairwise_append] at ordered
    have below := ordered.2.2 t ht s (.head _)
    by_contra overlaps
    rw [Bool.not_eq_true, Bool.not_eq_false'] at overlaps
    have above := lowest t (split ▸ List.mem_append_left _ ht) overlaps
    omega

end Apart

namespace Program.Built

variable {rs : List Region} {p : Program} {r : Region}

theorem meets_iff (built : Built rs p) (nonempty : 0 < r.bytes.size) {s : Region}
    (hs : s ∈ p.regions) : ¬ Disjoint s.span.range r.span.range ↔ s.overlaps r := by
  have apart := Region.disjoint_range_iff (built.apart.nonempty s hs) nonempty
  exact (not_congr apart).trans not_not

theorem mem_spans (built : Built rs p) {t : Span} :
    t ∈ rs.map Region.span ↔ ∃ s ∈ p.regions, s.span = t := by
  simp only [List.mem_map, built.perm.mem_iff]

/-- A region that is free can be mapped. -/
theorem map_free (built : Built rs p) (free : r.span.Free (rs.map Region.span)) :
    ∃ q, p.map r = .ok q ∧ Built (rs ++ [r]) q := by
  have passes : p.map r = .ok { p with regions := r.insert p.regions } := by
    refine map_eq_ok_iff.mpr ⟨free.nonempty, Nat.lt_of_le_pred (by decide) free.inside, ?_, rfl⟩
    intro s hs
    have apart := free.apart s.span (built.mem_spans.mpr ⟨s, hs, rfl⟩)
    exact (Region.disjoint_range_iff (built.apart.nonempty s hs) free.nonempty).mp apart
  exact ⟨_, passes, built.map passes⟩

/-- A region with a fault is refused for it. -/
theorem map_fault (built : Built rs p) {text : String}
    (fault : r.span.Fault (rs.map Region.span) text) : p.map r = .error (.invalidConfig text) := by
  cases fault with
  | empty nothing =>
      rw [Program.map, if_pos (Array.isEmpty_iff_size_eq_zero.mpr nothing)]
      rfl
  | wraps nonempty beyond =>
      rw [Program.map, if_neg (by rw [Array.isEmpty_iff_size_eq_zero]; exact nonempty.ne')]
      exact if_pos (Nat.succ_le_of_lt beyond)
  | overlaps nonempty inside ht meets lowest =>
      obtain ⟨s, hs, rfl⟩ := built.mem_spans.mp ht
      have found : p.regions.find? (·.overlaps r) = some s := by
        refine built.apart.find?_overlaps_iff.mpr ⟨hs, (built.meets_iff nonempty hs).mp meets, ?_⟩
        intro t ht' meets'
        exact lowest t.span (built.mem_spans.mpr ⟨t, ht', rfl⟩)
          ((built.meets_iff nonempty ht').mpr meets')
      rw [Program.map, if_neg (by rw [Array.isEmpty_iff_size_eq_zero]; exact nonempty.ne'),
        if_neg (Nat.not_le.mpr (Nat.lt_of_le_pred (by decide) inside)), found]
      rfl

/-- A region is free or has a fault. -/
theorem free_or_fault (built : Built rs p) (r : Region) :
    r.span.Free (rs.map Region.span) ∨ ∃ text, r.span.Fault (rs.map Region.span) text := by
  by_cases nonempty : 0 < r.bytes.size
  swap
  · exact .inr ⟨_, .empty (Nat.eq_zero_of_not_pos nonempty)⟩
  by_cases inside : r.span.limit ≤ 2 ^ 64 - 1
  swap
  · exact .inr ⟨_, .wraps nonempty (Nat.lt_of_not_le inside)⟩
  cases found : p.regions.find? (·.overlaps r) with
  | none =>
      refine .inl ⟨nonempty, inside, fun t ht => ?_⟩
      obtain ⟨s, hs, rfl⟩ := built.mem_spans.mp ht
      rw [List.find?_eq_none] at found
      exact not_not.mp fun meets => found s hs ((built.meets_iff nonempty hs).mp meets)
  | some s =>
      obtain ⟨hs, meets, lowest⟩ := built.apart.find?_overlaps_iff.mp found
      refine .inr ⟨_, .overlaps nonempty inside (built.mem_spans.mpr ⟨s, hs, rfl⟩)
        ((built.meets_iff nonempty hs).mpr meets) ?_⟩
      intro u hu meets'
      obtain ⟨t, ht, rfl⟩ := built.mem_spans.mp hu
      exact lowest t ht ((built.meets_iff nonempty ht).mp meets')

end Program.Built

namespace Assembler

section Asked

/-- The number of bytes of code that a call adds. -/
def Call.size : Call → Nat
  | .emit s => s.size
  | .label _ | .data .. | .entry _ => 0

/-- The region that a call adds. -/
def Call.data? : Call → Option (Word × List UInt8)
  | .data base bytes => some (base, bytes)
  | .emit _ | .label _ | .entry _ => none

/-- The number of bytes of code that calls emit. -/
def codeSize : List Call → Nat
  | [] => 0
  | c :: calls => c.size + codeSize calls

/-- The data regions of calls, in their order. -/
def dataOf (calls : List Call) : List (Word × List UInt8) := calls.filterMap Call.data?

def dataSpans (calls : List Call) : List Span :=
  (dataOf calls).map fun (base, bytes) => ⟨base, bytes.length⟩

/-- The entry label is the one that was asked for last. -/
def Starts (calls : List Call) (name : String) : Prop :=
  ∃ before rest, calls = before ++ .entry name :: rest ∧ ∀ other, .entry other ∉ rest

/-- A test that each call passes, given the calls before it. -/
def Each (test : List Call → Call → Prop) (calls : List Call) : Prop :=
  ∀ before c rest, calls = before ++ c :: rest → test before c

/-- A statement whose label is defined somewhere and whose access size exists. -/
structure Encodable (calls : List Call) (s : Statement) : Prop where
  label : ∀ name, s.label? = some name → .label name ∈ calls
  size : ∀ op n, s = .op op → op.accessSize? = some n → n ∈ Opcode.accessSizes

/-- Why a statement at an address cannot be encoded. -/
inductive Fault (calls : List Call) (address : Word) : Statement → Error → Prop
  | label {s : Statement} {name : String} (refers : s.label? = some name)
      (undefined : .label name ∉ calls) : Fault calls address s (.unknownLabel name)
  | size {op : Opcode} {n : UInt8} (access : op.accessSize? = some n)
      (impossible : n ∉ Opcode.accessSizes) :
      Fault calls address (.op op) (.decode ⟨address, .invalidSize n⟩)

/-- The statement of a call, if there is one, can be encoded. -/
def Encodes (calls _before : List Call) (c : Call) : Prop := ∀ s, c = .emit s → Encodable calls s

/-- The region of a call, if there is one, has room beside the code and the regions before it. -/
def Fits (code : Span) (before : List Call) (c : Call) : Prop :=
  ∀ base bytes, c = .data base bytes → Span.Free (code :: dataSpans before) ⟨base, bytes.length⟩

/-- What a program has to be for an assembler to finish it. -/
structure Assembles (base : Word) (calls : List Call) : Prop where
  statements : Each (Encodes calls) calls
  entry : ∀ name, Starts calls name → .label name ∈ calls
  code : 0 < codeSize calls
  data : Each (Fits ⟨base, codeSize calls⟩) calls

/-- What an assembler refuses, with the reason that it gives. -/
inductive Refused (base : Word) (calls : List Call) : Error → Prop
  | statement {before rest : List Call} {s : Statement} {failure : Error}
      (here : calls = before ++ .emit s :: rest) (first : Each (Encodes calls) before)
      (fault : Fault calls (base + UInt64.ofNat (codeSize before)) s failure) :
      Refused base calls failure
  | entry {name : String} (statements : Each (Encodes calls) calls) (starts : Starts calls name)
      (undefined : .label name ∉ calls) : Refused base calls (.unknownLabel name)
  | code {text : String} (statements : Each (Encodes calls) calls)
      (entry : ∀ name, Starts calls name → .label name ∈ calls)
      (fault : Span.Fault [] ⟨base, codeSize calls⟩ text) : Refused base calls (.invalidConfig text)
  | data {before rest : List Call} {address : Word} {bytes : List UInt8} {text : String}
      (statements : Each (Encodes calls) calls)
      (entry : ∀ name, Starts calls name → .label name ∈ calls)
      (code : 0 < codeSize calls) (here : calls = before ++ .data address bytes :: rest)
      (first : Each (Fits ⟨base, codeSize calls⟩) before)
      (fault : Span.Fault (⟨base, codeSize calls⟩ :: dataSpans before) ⟨address, bytes.length⟩ text) :
      Refused base calls (.invalidConfig text)

end Asked

section Order

variable {test : List Call → Call → Prop} {calls before rest : List Call} {c : Call}

theorem each_concat_iff : Each test (calls ++ [c]) ↔ Each test calls ∧ test calls c := by
  constructor
  · intro each
    refine ⟨fun before d rest split => each before d (rest ++ [c]) ?_, each calls c [] rfl⟩
    rw [split, List.append_assoc, List.cons_append]
  · rintro ⟨each, last⟩ before d rest split
    rcases rest.eq_nil_or_concat with rfl | ⟨rest, d', rfl⟩
    · obtain ⟨rfl, same⟩ := List.append_inj' split rfl
      cases same
      exact last
    · rw [List.concat_eq_append, ← List.cons_append, ← List.append_assoc] at split
      exact each before d rest (List.append_inj' split rfl).1

variable (test) in
/-- All calls pass a test, or there is a first one that does not. -/
theorem each_or_first (calls : List Call) : Each test calls ∨
    ∃ before c rest, calls = before ++ c :: rest ∧ Each test before ∧ ¬ test before c := by
  induction calls using List.reverseRecOn with
  | nil =>
      refine .inl fun before c rest split => ?_
      cases before <;> cases split
  | append_singleton calls c ih =>
      rcases ih with each | ⟨before, d, rest, rfl, each, fails⟩
      · by_cases passes : test calls c
        · exact .inl (each_concat_iff.mpr ⟨each, passes⟩)
        · exact .inr ⟨calls, c, [], rfl, each, passes⟩
      · exact .inr ⟨before, d, rest ++ [c], by simp, each, fails⟩

theorem Each.of_mem (each : Each test calls) (hc : c ∈ calls) : ∃ before, test before c := by
  obtain ⟨before, rest, split⟩ := List.append_of_mem hc
  exact ⟨before, each before c rest split⟩

/-- The entry was asked for a last time, or never. -/
theorem starts_or_not (calls : List Call) :
    (∃ name, Starts calls name) ∨ ∀ name, .entry name ∉ calls := by
  induction calls with
  | nil => exact .inr nofun
  | cons c calls ih =>
      rcases ih with ⟨name, before, rest, rfl, last⟩ | unset
      · exact .inl ⟨name, c :: before, rest, rfl, last⟩
      · by_cases sets : ∃ name, c = .entry name
        · obtain ⟨name, rfl⟩ := sets
          exact .inl ⟨name, [], calls, rfl, unset⟩
        · refine .inr fun name hc => ?_
          rcases List.mem_cons.mp hc with rfl | hc
          · exact sets ⟨name, rfl⟩
          · exact unset name hc

end Order

section After

variable {base : Word} {calls : List Call} {name : String} {a : Assembler}

theorem extent_call (c : Call) : extent (a.call c).statements = extent a.statements + c.size := by
  by_cases emits : ∃ s, c = .emit s
  · obtain ⟨s, rfl⟩ := emits
    rfl
  · rw [not_exists] at emits
    have nothing : c.size = 0 := by
      cases c with
      | emit s => exact absurd rfl (emits s)
      | label | data | entry => rfl
    rw [(call_keeps_code emits).2, nothing, Nat.add_zero]

theorem extent_foldl :
    extent (calls.foldl call a).statements = extent a.statements + codeSize calls := by
  induction calls generalizing a with
  | nil => rfl
  | cons c rest ih =>
      rw [List.foldl_cons, ih, extent_call, codeSize, Nat.add_assoc]

theorem extent_after : extent (after base calls).statements = codeSize calls :=
  extent_foldl.trans (Nat.zero_add _)

theorem position_after : (after base calls).position = base + UInt64.ofNat (codeSize calls) := by
  rw [(laid_after base calls).position, base_after, extent_after]

theorem data_foldl : (calls.foldl call a).data = (dataOf calls).reverse ++ a.data := by
  induction calls generalizing a with
  | nil => rfl
  | cons c rest ih =>
      rw [List.foldl_cons, ih]
      cases c with
      | data base bytes =>
          have first : dataOf (.data base bytes :: rest) = (base, bytes) :: dataOf rest := rfl
          rw [first, List.reverse_cons, List.append_assoc]
          rfl
      | label name =>
          rcases call_label (a := a) name with same | ⟨-, same⟩ <;> rw [same] <;> rfl
      | emit | entry => rfl

theorem data_after : (after base calls).data.reverse = dataOf calls := by
  rw [after, data_foldl]
  simp [new]

/-- What was emitted was asked for. -/
theorem emit_mem {address : Word} {s : Statement}
    (emitted : (address, s) ∈ (after base calls).statements) : .emit s ∈ calls := by
  induction calls using List.reverseRecOn with
  | nil => cases emitted
  | append_singleton calls c ih =>
      rw [after_append, List.foldl_cons, List.foldl_nil] at emitted
      by_cases emits : ∃ t, c = .emit t
      · obtain ⟨t, rfl⟩ := emits
        rcases List.mem_cons.mp emitted with same | earlier
        · cases same
          exact List.mem_append_right _ (.head _)
        · exact List.mem_append_left _ (ih earlier)
      · rw [not_exists] at emits
        rw [(call_keeps_code emits).2] at emitted
        exact List.mem_append_left _ (ih emitted)

theorem labelAddress?_eq_none_iff :
    (after base calls).labelAddress? name = none ↔ .label name ∉ calls := by
  refine ⟨fun free defined => ?_, labelAddress?_foldl_of_not_mem rfl⟩
  obtain ⟨before, rest, rfl, first⟩ := List.eq_append_cons_of_mem defined
  rw [labelAddress?_after first] at free
  cases free

variable (base) in
theorem resolve_defined (defined : .label name ∈ calls) :
    ∃ target, (after base calls).resolve name = .ok target := by
  cases found : (after base calls).labelAddress? name with
  | none => exact absurd defined (labelAddress?_eq_none_iff.mp found)
  | some target => exact ⟨target, by rw [resolve, found]⟩

theorem resolve_undefined (undefined : .label name ∉ calls) :
    (after base calls).resolve name = .error (.unknownLabel name) := by
  rw [resolve, labelAddress?_eq_none_iff.mpr undefined]

/-- A label is refused exactly if it is in use. -/
theorem label_refused_iff : (∃ failure, (after base calls).label name = .error failure) ↔
    .label name ∈ calls := by
  cases found : (after base calls).labelAddress? name with
  | none => simp [label, found, labelAddress?_eq_none_iff.mp found]
  | some target =>
      have defined : .label name ∈ calls := by
        by_contra undefined
        rw [labelAddress?_eq_none_iff.mpr undefined] at found
        cases found
      simp [label, found, defined]

section Encoded

variable {before rest : List Call} {address : Word} {s : Statement} {failure : Error}

theorem encodable_or_fault (calls : List Call) (address : Word) (s : Statement) :
    Encodable calls s ∨ ∃ failure, Fault calls address s failure := by
  cases s with
  | raw bytes => exact .inl ⟨by rintro _ ⟨⟩, by rintro _ _ ⟨⟩⟩
  | jumpTo name | callTo name | branchTo _ _ _ name =>
      by_cases defined : .label name ∈ calls
      · refine .inl ⟨?_, by rintro _ _ ⟨⟩⟩
        rintro _ ⟨⟩
        exact defined
      · exact .inr ⟨_, .label rfl defined⟩
  | op o =>
      cases access : o.accessSize? with
      | none =>
          refine .inl ⟨by rintro _ ⟨⟩, ?_⟩
          rintro _ n ⟨⟩ sized
          rw [access] at sized
          cases sized
      | some n =>
          by_cases possible : n ∈ Opcode.accessSizes
          · refine .inl ⟨by rintro _ ⟨⟩, ?_⟩
            rintro _ m ⟨⟩ sized
            rw [access] at sized
            cases sized
            exact possible
          · exact .inr ⟨_, .size access possible⟩

theorem encodeStatement_total (encodable : Encodable calls s) :
    ∃ bytes, (after base calls).encodeStatement address s = .ok bytes := by
  cases s with
  | raw bytes => exact ⟨_, rfl⟩
  | jumpTo name | callTo name | branchTo _ _ _ name =>
      obtain ⟨target, resolved⟩ := resolve_defined base (encodable.label name rfl)
      exact ⟨_, ok_bind resolved _⟩
  | op o =>
      simp only [encodeStatement, Statement.label?, Statement.opcode?, Option.bind_some, pure_bind]
      split
      · rename_i n access
        exact ⟨_, if_pos (encodable.size o n rfl access)⟩
      · exact ⟨_, rfl⟩

theorem encodeStatement_fault (fault : Fault calls address s failure) :
    (after base calls).encodeStatement address s = .error failure := by
  cases fault with
  | label refers undefined =>
      simp only [encodeStatement, refers]
      exact error_bind (resolve_undefined undefined) _
  | size access impossible =>
      simp only [encodeStatement, Statement.label?, Statement.opcode?, Option.bind_some, pure_bind,
        access, impossible, if_false]

variable (base) in
theorem encodeAll_total (statements : Each (Encodes calls) calls) :
    ∃ code, (after base calls).encodeAll = .ok code ∧ code.length = codeSize calls := by
  have each : ∀ entry ∈ (after base calls).statements.reverse,
      ∃ bytes, (after base calls).encodeStatement entry.1 entry.2 = .ok bytes ∧ True := by
    rintro ⟨address, s⟩ hs
    obtain ⟨before, encodes⟩ := statements.of_mem (emit_mem (List.mem_reverse.mp hs))
    exact (encodeStatement_total (encodes s rfl)).imp fun _ ok => ⟨ok, trivial⟩
  obtain ⟨parts, done, -⟩ := mapM_total each
  have encoded : (after base calls).encodeAll = .ok parts.flatten := ok_bind done _
  exact ⟨_, encoded, (length_encoded encoded).trans extent_after⟩

/-- Encoding stops at the first statement that has a fault. -/
theorem encodeAll_fault (here : calls = before ++ .emit s :: rest)
    (first : Each (Encodes calls) before)
    (fault : Fault calls (base + UInt64.ofNat (codeSize before)) s failure) :
    (after base calls).encodeAll = .error failure := by
  obtain ⟨newer, emitted⟩ := emitted_after base before rest s
  rw [← here, position_after] at emitted
  rw [encodeAll, emitted, List.reverse_append, List.reverse_cons, List.append_assoc, List.cons_append,
    List.nil_append]
  have passes : ∀ entry ∈ (after base before).statements.reverse,
      ∃ bytes, (after base calls).encodeStatement entry.1 entry.2 = .ok bytes := by
    rintro ⟨address, t⟩ ht
    obtain ⟨_, encodes⟩ := first.of_mem (emit_mem (List.mem_reverse.mp ht))
    exact encodeStatement_total (encodes t rfl)
  exact error_bind (mapM_error passes (encodeStatement_fault fault)) _

end Encoded

section Loaded

variable {before rest : List Call} {code : Region} {bare : Program} {text : String}

/-- The regions of data, as they are mapped. -/
def dataRegions (calls : List Call) : List Region :=
  (dataOf calls).map fun (base, bytes) => ⟨base, bytes.toArray, false⟩

theorem span_dataRegions (calls : List Call) :
    (dataRegions calls).map Region.span = dataSpans calls := List.map_map

theorem dataOf_concat (calls : List Call) (c : Call) :
    dataOf (calls ++ [c]) = dataOf calls ++ (c.data?).toList := by
  rw [dataOf, List.filterMap_append]
  cases c <;> rfl

/-- Data that has room is mapped, region by region. -/
theorem load_total (coded : Program.Built [code] bare) (fits : Each (Fits code.span) calls) :
    ∃ full, (dataOf calls).foldlM (fun p (base, bytes) => p.withData base bytes) bare = .ok full ∧
      Program.Built (code :: dataRegions calls) full := by
  -- A region has to fit beside those of the calls before it, so the calls are taken from the end.
  induction calls using List.reverseRecOn with
  | nil => exact ⟨bare, rfl, coded⟩
  | append_singleton calls c ih =>
      obtain ⟨each, last⟩ := each_concat_iff.mp fits
      obtain ⟨p, loaded, built⟩ := ih each
      rw [dataRegions, dataOf_concat, List.foldlM_append, List.map_append]
      cases c with
      | data base bytes =>
          have free := last base bytes rfl
          rw [← span_dataRegions] at free
          obtain ⟨full, mapped, built⟩ := built.map_free (r := ⟨base, bytes.toArray, false⟩) free
          exact ⟨full, (ok_bind loaded _).trans (ok_bind mapped _), built⟩
      | emit | label | entry =>
          refine ⟨p, ok_bind loaded _, ?_⟩
          rw [Call.data?, Option.toList_none, List.map_nil, List.append_nil]
          exact built

/-- Loading stops at the first region that has a fault. -/
theorem load_fault {address : Word} {bytes : List UInt8} (coded : Program.Built [code] bare)
    (here : calls = before ++ .data address bytes :: rest) (first : Each (Fits code.span) before)
    (fault : Span.Fault (code.span :: dataSpans before) ⟨address, bytes.length⟩ text) :
    (dataOf calls).foldlM (fun p (base, bytes) => p.withData base bytes) bare =
      .error (.invalidConfig text) := by
  obtain ⟨p, loaded, built⟩ := load_total coded first
  rw [← span_dataRegions] at fault
  have refused := built.map_fault (r := ⟨address, bytes.toArray, false⟩) fault
  rw [here, dataOf, List.filterMap_append, List.foldlM_append]
  exact (ok_bind loaded _).trans (error_bind refused _)

end Loaded

section Finished

variable {failure : Error}

/-- The address at which the program starts. -/
def start (a : Assembler) : Except Error Word :=
  match a.entry with
  | some name => a.resolve name
  | none => pure a.base

/-- The image of code, with the data and the labels of an assembler. -/
def image (a : Assembler) (code : List UInt8) (start : Word) : Except Error Program := do
  let bare ← Program.withCode { entry := start } a.base code
  let full ← a.data.reverse.foldlM (fun p (base, bytes) => p.withData base bytes) bare
  pure (a.labels.foldl (fun p (name, address) => p.addSymbol name address) full)

theorem finish_eq : a.finish = a.encodeAll >>= fun code => a.start >>= a.image code := by
  unfold finish start
  congr 1
  funext code
  cases a.entry <;> rfl

variable (base) in
theorem start_total (entry : ∀ name, Starts calls name → .label name ∈ calls) :
    ∃ address, (after base calls).start = .ok address := by
  rcases starts_or_not calls with ⟨name, before, rest, rfl, last⟩ | unset
  · obtain ⟨target, resolved⟩ := resolve_defined base (entry name ⟨before, rest, rfl, last⟩)
    refine ⟨target, ?_⟩
    rw [start, after, entry_foldl_of_last last]
    exact resolved
  · refine ⟨(after base calls).base, ?_⟩
    rw [start, after, entry_foldl_of_not_mem unset]
    rfl

theorem start_fault (starts : Starts calls name) (undefined : .label name ∉ calls) :
    (after base calls).start = .error (.unknownLabel name) := by
  obtain ⟨before, rest, rfl, last⟩ := starts
  rw [start, after, entry_foldl_of_last last]
  exact resolve_undefined undefined

/-- Code that is not empty and ends inside the address space is mapped before all else. -/
theorem withCode_total {code : List UInt8} (start : Word) (nonempty : 0 < code.length)
    (room : base.toNat + code.length < 2 ^ 64) :
    ∃ bare, Program.withCode { entry := start } base code = .ok bare ∧
      Program.Built [⟨base, code.toArray, true⟩] bare :=
  (Program.Built.new start).map_free ⟨nonempty, Nat.le_pred_of_lt room, nofun⟩

theorem finish_total (room : base.toNat + codeSize calls < 2 ^ 64) (assembles : Assembles base calls) :
    ∃ p, (after base calls).finish = .ok p := by
  obtain ⟨code, encoded, size⟩ := encodeAll_total base assembles.statements
  obtain ⟨start, started⟩ := start_total base assembles.entry
  have fits := assembles.data
  rw [← size] at room fits
  obtain ⟨bare, coded, built⟩ := withCode_total start (size ▸ assembles.code) room
  obtain ⟨full, loaded, -⟩ := load_total built fits
  rw [finish_eq, ok_bind encoded, ok_bind started, image, base_after, ok_bind coded, data_after,
    ok_bind loaded]
  exact ⟨_, rfl⟩

theorem finish_refuses (room : base.toNat + codeSize calls < 2 ^ 64)
    (refused : Refused base calls failure) : (after base calls).finish = .error failure := by
  rw [finish_eq]
  cases refused with
  | statement here first fault => exact error_bind (encodeAll_fault here first fault) _
  | entry statements starts undefined =>
      obtain ⟨code, encoded, -⟩ := encodeAll_total base statements
      exact (ok_bind encoded _).trans (error_bind (start_fault starts undefined) _)
  | code statements entry fault =>
      obtain ⟨code, encoded, size⟩ := encodeAll_total base statements
      obtain ⟨start, started⟩ := start_total base entry
      rw [← size] at fault
      have refused := (Program.Built.new start).map_fault (r := ⟨base, code.toArray, true⟩) fault
      rw [ok_bind encoded, ok_bind started, image, base_after]
      exact error_bind refused _
  | data statements entry nonempty here first fault =>
      obtain ⟨code, encoded, size⟩ := encodeAll_total base statements
      obtain ⟨start, started⟩ := start_total base entry
      rw [← size] at room nonempty first fault
      obtain ⟨bare, coded, built⟩ := withCode_total start nonempty room
      rw [ok_bind encoded, ok_bind started, image, base_after, ok_bind coded, data_after]
      exact error_bind (load_fault built here first fault) _

/-- What does not assemble has a first thing that is wrong. -/
theorem assembles_or_refused (room : base.toNat + codeSize calls < 2 ^ 64) :
    Assembles base calls ∨ ∃ failure, Refused base calls failure := by
  rcases each_or_first (Encodes calls) calls with
    statements | ⟨before, c, rest, here, first, fails⟩
  swap
  · simp only [Encodes, not_forall] at fails
    obtain ⟨s, rfl, fails⟩ := fails
    rcases encodable_or_fault calls (base + UInt64.ofNat (codeSize before)) s with
      encodable | ⟨failure, fault⟩
    · exact absurd encodable fails
    · exact .inr ⟨failure, .statement here first fault⟩
  by_cases entry : ∀ name, Starts calls name → .label name ∈ calls
  swap
  · simp only [not_forall] at entry
    obtain ⟨name, starts, undefined⟩ := entry
    exact .inr ⟨_, .entry statements starts undefined⟩
  by_cases nonempty : 0 < codeSize calls
  swap
  · exact .inr ⟨_, .code statements entry (.empty (Nat.eq_zero_of_not_pos nonempty))⟩
  rcases each_or_first (Fits ⟨base, codeSize calls⟩) calls with
    data | ⟨before, c, rest, here, first, fails⟩
  · exact .inl ⟨statements, entry, nonempty, data⟩
  simp only [Fits, not_forall] at fails
  obtain ⟨address, bytes, rfl, fails⟩ := fails
  -- The calls before the first region that does not fit are loaded, which says where it could go.
  obtain ⟨code, -, size⟩ := encodeAll_total base statements
  have span : Span.mk base (codeSize calls) = Region.span ⟨base, code.toArray, true⟩ := by
    rw [← size]
    rfl
  obtain ⟨bare, -, coded⟩ := withCode_total base (size ▸ nonempty) (size ▸ room)
  obtain ⟨full, -, built⟩ := load_total coded (span ▸ first)
  have either := built.free_or_fault ⟨address, bytes.toArray, false⟩
  rw [List.map_cons, span_dataRegions, ← span] at either
  rcases either with free | ⟨text, fault⟩
  · exact absurd free fails
  · exact .inr ⟨_, .data statements entry nonempty here first fault⟩

/-- A label is refused exactly if it is in use, which changes nothing. A program is finished exactly if
    nothing is missing or in the way, and refused otherwise for the first thing that is wrong. -/
theorem finish_exact (room : base.toNat + codeSize calls < 2 ^ 64) :
    (∀ name, ((∃ failure, (after base calls).label name = .error failure) ↔ .label name ∈ calls) ∧
      ∀ failure, (after base calls).label name = .error failure →
        failure = .duplicateLabel name ∧ after base (calls ++ [.label name]) = after base calls) ∧
    ((∃ p, (after base calls).finish = .ok p) ↔ Assembles base calls) ∧
    ∀ failure, (after base calls).finish = .error failure ↔ Refused base calls failure := by
  refine ⟨fun name => ⟨label_refused_iff, fun failure refused => ?_⟩, ⟨?_, finish_total room⟩,
    fun failure => ⟨fun failed => ?_, finish_refuses room⟩⟩
  · rw [after_append, List.foldl_cons, List.foldl_nil, call, refused]
    refine ⟨?_, rfl⟩
    unfold label at refused
    split at refused <;> cases refused
    rfl
  · rintro ⟨p, finished⟩
    rcases assembles_or_refused room with assembles | ⟨failure, refused⟩
    · exact assembles
    · rw [finish_refuses room refused] at finished
      cases finished
  · rcases assembles_or_refused room with assembles | ⟨other, refused⟩
    · obtain ⟨p, finished⟩ := finish_total room assembles
      rw [finished] at failed
      cases failed
    · exact Except.error.inj ((finish_refuses room refused).symm.trans failed) ▸ refused

/-- A size that does not exist is told of before data that meets the code, and not the label that is
    defined behind its use. -/
theorem finish_exact_order :
    let calls : List Call := [.data 0x14 [0xff], .emit (.callTo "f"), .label "f",
      .emit (.op (.load .r0 (.imm 0x14) 0 3)), .entry "f", .label "f"]
    0x10 + codeSize calls < 2 ^ 64 ∧ ¬ Assembles 0x10 calls ∧
      Refused 0x10 calls (.decode ⟨0x1a, .invalidSize 3⟩) ∧
      Assembles 0x10 [.data 0x1b [0xff], .emit (.callTo "f"), .label "f", .emit (.op .halt)] := by
  intro calls
  have room : (0x10 : Word).toNat + codeSize calls < 2 ^ 64 := by decide
  obtain ⟨-, finished, refused⟩ := finish_exact room
  have fails : (after 0x10 calls).finish = .error (.decode ⟨0x1a, .invalidSize 3⟩) := rfl
  refine ⟨room, fun assembles => ?_, (refused _).mp fails, ?_⟩
  · obtain ⟨p, done⟩ := finished.mpr assembles
    rw [fails] at done
    cases done
  · have room' : (0x10 : Word).toNat +
        codeSize [.data 0x1b [0xff], .emit (.callTo "f"), .label "f", .emit (.op .halt)] < 2 ^ 64 := by
      decide
    exact (finish_exact room').2.1.mp ⟨_, rfl⟩

end Finished

end After

end Assembler

end PathSearch
