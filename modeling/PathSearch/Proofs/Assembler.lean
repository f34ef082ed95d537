import PathSearch.Machine.Assembler
import PathSearch.Proofs.Program

/-! # What an assembled program contains

Statements get their addresses while they are emitted, long before the labels they refer to are
known. The number of bytes of a statement does not depend on where its label stands, so the bytes
that are written at the end fill exactly these addresses, and each statement is found again at its
own.
-/

namespace PathSearch

namespace Statement

/-- A statement takes as many bytes for one target as for another. -/
theorem length_bytes (s : Statement) (target : Word) : (s.bytes target).length = s.size := by
  have word (v : Word) : (Bytes.toLE 8 v.toNat).length = 8 := Bytes.length_toLE _ _
  cases s with
  | op o => rfl
  | raw bs => rfl
  | jumpTo l | callTo l =>
      simp only [size, bytes, opcode?, Option.map_some, Option.getD_some, Opcode.encode,
        Operand.encode, List.length_cons, word]
  | branchTo c l r name =>
      simp only [size, bytes, opcode?, Option.map_some, Option.getD_some, Opcode.encode,
        List.length_cons, List.length_append, word]

theorem bytes_of_opcode? {s : Statement} {target : Word} {op : Opcode}
    (is : s.opcode? target = some op) : s.bytes target = op.encode := by
  cases s with
  | raw bs => cases is
  | op _ | jumpTo _ | callTo _ | branchTo _ _ _ _ =>
      cases is
      rfl

end Statement

namespace Assembler

/-- What can be asked of an assembler before its program is finished. -/
inductive Call where
  | emit (s : Statement)
  | label (name : String)
  | data (base : Word) (bytes : List UInt8)
  | entry (label : String)
  deriving Repr, DecidableEq

/-- The assembler after a call. A label that is in use is refused, which changes nothing. -/
def call (a : Assembler) : Call → Assembler
  | .emit s => a.emit s
  | .label name =>
      match a.label name with
      | .ok b => b
      | .error _ => a
  | .data base bytes => a.addData base bytes
  | .entry label => a.setEntry label

/-- The assembler after calls, one after the other. -/
def after (base : Word) (calls : List Call) : Assembler := calls.foldl call (new base)

/-- The address of the statement that calls emit first, or the end of the code where they emit
    none. -/
def upcoming (a : Assembler) : List Call → Word
  | [] | .emit _ :: _ => a.position
  | c :: rest => (a.call c).upcoming rest

/-- The number of bytes of statements. -/
def extent : List (Word × Statement) → Nat
  | [] => 0
  | (_, s) :: older => extent older + s.size

variable {a : Assembler}

section Calls

/-- What is taken for a label that is not in use. -/
theorem label_of_free {name : String} (free : a.labelAddress? name = none) :
    a.call (.label name) = { a with labels := (name, a.position) :: a.labels } := by
  simp only [call, label, free]

theorem label_of_used {name : String} {address : Word} (used : a.labelAddress? name = some address) :
    a.call (.label name) = a := by
  simp only [call, label, used]

/-- What a call does about a label. -/
theorem call_label (name : String) :
    a.call (.label name) = a ∨ a.labelAddress? name = none ∧
      a.call (.label name) = { a with labels := (name, a.position) :: a.labels } := by
  cases known : a.labelAddress? name with
  | none => exact .inr ⟨rfl, label_of_free known⟩
  | some address => exact .inl (label_of_used known)

theorem base_call (c : Call) : (a.call c).base = a.base := by
  cases c with
  | label name => rcases call_label (a := a) name with same | ⟨-, same⟩ <;> rw [same]
  | emit | data | entry => rfl

/-- A call that emits nothing leaves the code as it is. -/
theorem call_keeps_code {c : Call} (silent : ∀ s, c ≠ .emit s) :
    (a.call c).position = a.position ∧ (a.call c).statements = a.statements := by
  cases c with
  | emit s => exact absurd rfl (silent s)
  | label name =>
      rcases call_label (a := a) name with same | ⟨-, same⟩ <;> rw [same] <;> exact ⟨rfl, rfl⟩
  | data | entry => exact ⟨rfl, rfl⟩

theorem upcoming_silent {c : Call} (silent : ∀ s, c ≠ .emit s) (rest : List Call) :
    a.upcoming (c :: rest) = (a.call c).upcoming rest := by
  cases c with
  | emit s => exact absurd rfl (silent s)
  | label | data | entry => simp only [upcoming]

theorem upcoming_eq (calls : List Call) : a.upcoming calls = a.position := by
  induction calls generalizing a with
  | nil => rfl
  | cons c rest ih =>
      by_cases emits : ∃ s, c = .emit s
      · obtain ⟨s, rfl⟩ := emits
        rfl
      · rw [not_exists] at emits
        rw [upcoming_silent emits, ih, (call_keeps_code emits).1]

/-- A call adds the label that it defines, unless that is in use, and no other. -/
theorem labelAddress?_call (name : String) (c : Call) :
    (a.call c).labelAddress? name =
      if c = .label name ∧ a.labelAddress? name = none then some a.position
      else a.labelAddress? name := by
  cases c with
  | emit | data | entry =>
      rw [if_neg (by rintro ⟨⟨⟩, -⟩)]
      rfl
  | label other =>
      by_cases same : other = name
      · subst same
        cases known : a.labelAddress? other with
        | none => rw [label_of_free known, if_pos ⟨rfl, rfl⟩, labelAddress?, List.lookup_cons_self]
        | some address => rw [label_of_used known, if_neg (by rintro ⟨-, ⟨⟩⟩), known]
      · rw [if_neg (by rintro ⟨⟨⟩, -⟩; exact same rfl)]
        rcases call_label (a := a) other with same | ⟨-, added⟩
        · rw [same]
        · rw [added, labelAddress?, List.lookup_cons, beq_eq_false_iff_ne.mpr fun h => same h.symm]
          rfl

/-- A label keeps its address. -/
theorem labelAddress?_call_of_some {name : String} {address : Word}
    (named : a.labelAddress? name = some address) (c : Call) :
    (a.call c).labelAddress? name = some address := by
  rw [labelAddress?_call, if_neg (by rw [named]; rintro ⟨-, ⟨⟩⟩), named]

theorem entry_call (c : Call) : (a.call c).entry = match c with
    | .entry l => some l
    | _ => a.entry := by
  cases c with
  | label name => rcases call_label (a := a) name with same | ⟨-, same⟩ <;> rw [same]
  | emit | data | entry => rfl

end Calls

/-- The code and the labels as the calls so far have left them. -/
structure Laid (a : Assembler) : Prop where
  position : a.position = a.base + UInt64.ofNat (extent a.statements)
  distinct : (a.labels.map (·.1)).Nodup

theorem Laid.new (base : Word) : Laid (new base) := by
  refine ⟨?_, .nil⟩
  exact (UInt64.add_zero base).symm

theorem Laid.call (laid : Laid a) (c : Call) : Laid (a.call c) := by
  cases c with
  | emit s =>
      refine ⟨?_, laid.distinct⟩
      change a.position + UInt64.ofNat s.size = a.base + UInt64.ofNat (extent a.statements + s.size)
      rw [laid.position, UInt64.ofNat_add, UInt64.add_assoc]
  | label name =>
      simp only [Assembler.call, label]
      split
      · rename_i added
        split at added <;> cases added
        rename_i free
        refine ⟨laid.position, ?_⟩
        rw [List.map_cons, List.nodup_cons]
        refine ⟨fun used => ?_, laid.distinct⟩
        obtain ⟨entry, he, same⟩ := List.mem_map.mp used
        have other := List.lookup_eq_none_iff.mp free entry he
        rw [bne_iff_ne] at other
        exact other same.symm
      · exact laid
  | data | entry => exact ⟨laid.position, laid.distinct⟩

section Encoding

/-- The bytes of statements, of which the latest comes first, with the labels of an assembler. -/
def encoded (a : Assembler) (statements : List (Word × Statement)) : Except Error (List UInt8) := do
  let parts ← statements.reverse.mapM fun (address, s) => a.encodeStatement address s
  pure parts.flatten

theorem encoded_cons {older : List (Word × Statement)} {address : Word} {s : Statement}
    {code : List UInt8} (done : a.encoded ((address, s) :: older) = .ok code) :
    ∃ front bytes, a.encoded older = .ok front ∧ a.encodeStatement address s = .ok bytes ∧
      code = front ++ bytes := by
  rw [encoded, List.reverse_cons, List.mapM_append] at done
  obtain ⟨parts, done, flat⟩ := bind_ok done
  obtain ⟨front, first, done⟩ := bind_ok done
  obtain ⟨last, done, joined⟩ := bind_ok done
  rw [List.mapM_cons, List.mapM_nil] at done
  obtain ⟨bytes, second, done⟩ := bind_ok done
  cases done
  cases joined
  cases flat
  refine ⟨front.flatten, bytes, ok_bind first _, second, ?_⟩
  simp only [List.flatten_append, List.flatten_cons, List.flatten_nil, List.append_nil]

/-- Bytes that are given out only where an access size, if there is one, is possible. -/
theorem guarded_ok {access : Option UInt8} {bytes given : List UInt8} {refusal : UInt8 → Error}
    (done : (match access with
      | some size => if size ∈ Opcode.accessSizes then pure bytes else .error (refusal size)
      | none => pure bytes : Except Error (List UInt8)) = .ok given) :
    (∀ n, access = some n → n ∈ Opcode.accessSizes) ∧ given = bytes := by
  split at done
  · split at done
    · rename_i possible
      cases done
      refine ⟨fun n same => ?_, rfl⟩
      cases same
      exact possible
    · cases done
  · cases done
    exact ⟨nofun, rfl⟩

theorem resolve_ok {name : String} {address : Word} (done : a.resolve name = .ok address) :
    a.labelAddress? name = some address := by
  unfold resolve at done
  split at done
  · rename_i found
    cases done
    exact found
  · cases done

theorem encodeStatement_ok {address : Word} {s : Statement} {bytes : List UInt8}
    (done : a.encodeStatement address s = .ok bytes) :
    ∃ target, (∀ l, s.label? = some l → a.labelAddress? l = some target) ∧
      (∀ op, s.opcode? target = some op → op.WellSized) ∧ bytes = s.bytes target := by
  have sized {target : Word}
      (possible : ∀ n, (s.opcode? target).bind Opcode.accessSize? = some n → n ∈ Opcode.accessSizes) :
      ∀ op, s.opcode? target = some op → op.WellSized := by
    intro op is n access
    apply possible
    rw [is]
    exact access
  unfold encodeStatement at done
  split at done
  · rename_i l refers
    obtain ⟨target, resolved, done⟩ := bind_ok done
    obtain ⟨possible, written⟩ := guarded_ok done
    refine ⟨target, fun l' refers' => ?_, sized possible, written⟩
    obtain rfl : l = l' := Option.some.inj (refers.symm.trans refers')
    exact resolve_ok resolved
  · rename_i refers
    obtain ⟨possible, written⟩ := guarded_ok done
    refine ⟨0, fun l refers' => ?_, sized possible, written⟩
    rw [refers] at refers'
    cases refers'

theorem length_encoded {statements : List (Word × Statement)} {code : List UInt8}
    (done : a.encoded statements = .ok code) : code.length = extent statements := by
  induction statements generalizing code with
  | nil =>
      cases done
      rfl
  | cons last older ih =>
      obtain ⟨address, s⟩ := last
      obtain ⟨front, bytes, before, here, rfl⟩ := encoded_cons done
      obtain ⟨target, -, -, rfl⟩ := encodeStatement_ok here
      rw [List.length_append, ih before, s.length_bytes, extent]

/-- The bytes of a statement stand behind those of the older statements. -/
theorem encoded_split {newer older : List (Word × Statement)} {address : Word} {s : Statement}
    {code : List UInt8} (done : a.encoded (newer ++ (address, s) :: older) = .ok code) :
    ∃ front bytes back, front.length = extent older ∧ a.encodeStatement address s = .ok bytes ∧
      code = front ++ (bytes ++ back) := by
  induction newer generalizing code with
  | nil =>
      obtain ⟨front, bytes, before, here, rfl⟩ := encoded_cons done
      exact ⟨front, bytes, [], length_encoded before, here, by rw [List.append_nil]⟩
  | cons last newer ih =>
      obtain ⟨first, more, before, -, rfl⟩ := encoded_cons done
      obtain ⟨front, bytes, back, length, here, rfl⟩ := ih before
      exact ⟨front, bytes, back ++ more, length, here, by simp only [List.append_assoc]⟩

end Encoding

/-- What a finished program takes over from the assembler. -/
structure Finished (a : Assembler) (p : Program) (code : List UInt8) : Prop where
  encoded : a.encoded a.statements = .ok code
  apart : Apart p.regions
  mapped : ⟨a.base, code.toArray, true⟩ ∈ p.regions
  fits : a.base.toNat + code.length < 2 ^ 64
  symbol : ∀ name, p.symbol? name = a.labelAddress? name
  entry : match a.entry with
    | some name => p.symbol? name = some p.entry
    | none => p.entry = a.base

section Finish

variable {p q : Program}

theorem symbol?_addSymbol (name other : String) (address : Word) :
    (p.addSymbol other address).symbol? name =
      if other = name then some address else p.symbol? name := by
  simp only [Program.symbol?, Program.addSymbol, Std.TreeMap.getElem?_insert, Std.compare_eq_iff_eq]

theorem symbol?_addSymbols {labels : List (String × Word)} (distinct : (labels.map (·.1)).Nodup)
    (name : String) :
    (labels.foldl (fun p (name, address) => p.addSymbol name address) p).symbol? name =
      (labels.lookup name).or (p.symbol? name) := by
  induction labels generalizing p with
  | nil => rfl
  | cons first rest ih =>
      obtain ⟨other, address⟩ := first
      rw [List.map_cons, List.nodup_cons] at distinct
      rw [List.foldl_cons, ih distinct.2, symbol?_addSymbol, List.lookup_cons]
      by_cases same : other = name
      · subst same
        have once : rest.lookup other = none := by
          rw [List.lookup_eq_none_iff]
          intro entry he
          rw [bne_iff_ne]
          intro same
          exact distinct.1 (List.mem_map.mpr ⟨entry, he, same.symm⟩)
        rw [once, beq_self_eq_true, if_pos rfl]
        rfl
      · rw [if_neg same, beq_eq_false_iff_ne.mpr fun h => same h.symm]

theorem addSymbols_keeps (labels : List (String × Word)) :
    (labels.foldl (fun p (name, address) => p.addSymbol name address) p).regions = p.regions ∧
    (labels.foldl (fun p (name, address) => p.addSymbol name address) p).entry = p.entry := by
  induction labels generalizing p with
  | nil => exact ⟨rfl, rfl⟩
  | cons first rest ih =>
      rw [List.foldl_cons]
      exact ih

theorem withData_keeps {data : List (Word × List UInt8)} (apart : Apart p.regions)
    (done : data.foldlM (fun p (base, bytes) => p.withData base bytes) p = .ok q) :
    Apart q.regions ∧ (∀ r ∈ p.regions, r ∈ q.regions) ∧ q.entry = p.entry ∧
      q.symbols = p.symbols := by
  induction data generalizing p with
  | nil =>
      cases done
      exact ⟨apart, fun _ hr => hr, rfl, rfl⟩
  | cons first rest ih =>
      rw [List.foldlM_cons] at done
      obtain ⟨next, mapped, done⟩ := bind_ok done
      obtain ⟨apart', kept, entry, symbols⟩ := ih (Program.apart_map apart mapped) done
      obtain ⟨-, -, -, rfl⟩ := Program.map_eq_ok_iff.mp mapped
      exact ⟨apart', fun r hr => kept r (Region.mem_insert.mpr (.inr hr)), entry, symbols⟩

/-- The image of code with an entry point, data regions and symbols. -/
theorem finished_of_image {code : List UInt8} {start : Word} {bare full : Program} (laid : Laid a)
    (encoded : a.encoded a.statements = .ok code)
    (entry : match a.entry with
      | some name => a.labelAddress? name = some start
      | none => start = a.base)
    (coded : Program.withCode { entry := start } a.base code = .ok bare)
    (loaded : a.data.reverse.foldlM (fun p (base, bytes) => p.withData base bytes) bare = .ok full) :
    Finished a (a.labels.foldl (fun p (name, address) => p.addSymbol name address) full) code := by
  obtain ⟨apart, kept, start', symbols⟩ :=
    withData_keeps (Program.apart_map Apart.nil coded) loaded
  obtain ⟨-, fits, -, rfl⟩ := Program.map_eq_ok_iff.mp coded
  obtain ⟨regions, start''⟩ := addSymbols_keeps (p := full) a.labels
  have nameless (name : String) : full.symbol? name = none := by
    rw [Program.symbol?, symbols]
    exact Std.TreeMap.getElem?_emptyc
  have symbol (name : String) :
      (a.labels.foldl (fun p (name, address) => p.addSymbol name address) full).symbol? name =
        a.labelAddress? name := by
    rw [symbol?_addSymbols laid.distinct, nameless, Option.or_none, labelAddress?]
  refine ⟨encoded, regions ▸ apart, ?_, fits, symbol, ?_⟩
  · rw [regions]
    exact kept _ (Region.mem_insert.mpr (.inl rfl))
  · rw [start'', start']
    split at entry
    · exact (symbol _).trans entry
    · exact entry

theorem finish_ok (laid : Laid a) (done : a.finish = .ok p) : ∃ code, Finished a p code := by
  unfold finish at done
  obtain ⟨code, encoded, done⟩ := bind_ok done
  refine ⟨code, ?_⟩
  split at done
  · rename_i name set
    obtain ⟨start, resolved, done⟩ := bind_ok done
    obtain ⟨bare, coded, done⟩ := bind_ok done
    obtain ⟨full, loaded, done⟩ := bind_ok done
    cases done
    refine finished_of_image laid encoded ?_ coded loaded
    rw [set]
    exact resolve_ok resolved
  · rename_i unset
    obtain ⟨start, resolved, done⟩ := bind_ok done
    obtain ⟨bare, coded, done⟩ := bind_ok done
    obtain ⟨full, loaded, done⟩ := bind_ok done
    cases done
    cases resolved
    refine finished_of_image laid encoded ?_ coded loaded
    rw [unset]

/-- The bytes of a statement stand at its address. -/
theorem Finished.code_at {code : List UInt8} (finished : Finished a p code)
    {newer older : List (Word × Statement)} {address : Word} {s : Statement}
    (emitted : a.statements = newer ++ (address, s) :: older)
    (here : address = a.base + UInt64.ofNat (extent older)) :
    ∃ target back, (∀ l, s.label? = some l → p.symbol? l = some target) ∧
      (∀ op, s.opcode? target = some op → op.WellSized) ∧
      code.drop (extent older) = s.bytes target ++ back ∧
      address.toNat = a.base.toNat + extent older ∧
      extent older + s.size ≤ code.length := by
  obtain ⟨front, bytes, back, length, written, split⟩ := encoded_split (emitted ▸ finished.encoded)
  obtain ⟨target, resolved, sized, rfl⟩ := encodeStatement_ok written
  have fits := finished.fits
  have whole : code.length = extent older + (s.size + back.length) := by
    rw [split, List.length_append, List.length_append, length, s.length_bytes]
  refine ⟨target, back, fun l refers => ?_, sized, ?_, ?_, by omega⟩
  · rw [finished.symbol, resolved l refers]
  · rw [split, ← length, List.drop_left]
  · rw [here, UInt64.toNat_add, UInt64.toNat_ofNat']
    omega

end Finish

end Assembler

/-- An instruction of an image decodes at its address, and another one follows it. -/
def Program.Runs (p : Program) (here next : Word) (op : Opcode) : Prop :=
  ∃ i, p.decode here = .ok i ∧ i.opcode = op ∧ i.fallthrough = next

/-- A statement as an image has it: an instruction with the address of its label, or bytes. -/
def Statement.In (p : Program) (here next : Word) : Statement → Prop
  | .op o => p.Runs here next o
  | .jumpTo l => ∃ target, p.symbol? l = some target ∧ p.Runs here next (.jump (.imm target))
  | .callTo l => ∃ target, p.symbol? l = some target ∧ p.Runs here next (.call (.imm target))
  | .branchTo c x y l => ∃ target, p.symbol? l = some target ∧ p.Runs here next (.branch c x y target)
  | .raw bytes => ∀ i b, bytes[i]? = some b → p.byte? (here + UInt64.ofNat i) = some b

namespace Assembler

variable {a : Assembler} {p : Program} {code : List UInt8}

theorem contains_code_iff {address : Word} : Region.contains ⟨a.base, code.toArray, true⟩ address ↔
    a.base.toNat ≤ address.toNat ∧ address.toNat < a.base.toNat + code.length := Region.contains_iff

/-- The instruction of a statement decodes at its address, with the address of its label. -/
theorem Finished.runs (finished : Finished a p code) {newer older : List (Word × Statement)}
    {address : Word} {s : Statement} (emitted : a.statements = newer ++ (address, s) :: older)
    (here : address = a.base + UInt64.ofNat (extent older)) (op : Word → Opcode)
    (is : ∀ target, s.opcode? target = some (op target)) :
    ∃ target, (∀ l, s.label? = some l → p.symbol? l = some target) ∧
      p.Runs address (address + UInt64.ofNat s.size) (op target) := by
  obtain ⟨target, back, resolved, sized, bytes, place, room⟩ := finished.code_at emitted here
  have length : (op target).encode.length = s.size := by
    rw [← Statement.bytes_of_opcode? (is target), s.length_bytes]
  have inside : Region.contains ⟨a.base, code.toArray, true⟩ address := by
    have := (op target).length_encode_pos
    rw [contains_code_iff]
    omega
  refine ⟨target, resolved, ⟨address, (op target).encode.length, op target⟩, ?_, rfl, ?_⟩
  · rw [Program.decode_eq finished.apart finished.mapped inside rfl]
    refine Instruction.decode_eq_ok_iff.mpr ⟨op target, sized _ (is target), ⟨back, ?_⟩, rfl⟩
    rw [← Statement.bytes_of_opcode? (is target), ← bytes, place, Nat.add_sub_cancel_left]
  · rw [Instruction.fallthrough, length]

theorem Finished.statement_in (finished : Finished a p code) {newer older : List (Word × Statement)}
    {address : Word} {s : Statement} (emitted : a.statements = newer ++ (address, s) :: older)
    (here : address = a.base + UInt64.ofNat (extent older)) :
    s.In p address (address + UInt64.ofNat s.size) := by
  cases s with
  | op o =>
      obtain ⟨target, -, runs⟩ := finished.runs emitted here (fun _ => o) fun _ => rfl
      exact runs
  | jumpTo l | callTo l | branchTo c x y l =>
      obtain ⟨target, resolved, runs⟩ := finished.runs emitted here _ fun _ => rfl
      exact ⟨target, resolved l rfl, runs⟩
  | raw bs =>
      intro i b found
      obtain ⟨target, back, -, -, bytes, place, room⟩ := finished.code_at emitted here
      obtain ⟨short, -⟩ := List.getElem?_eq_some_iff.mp found
      have fits := finished.fits
      have size : (Statement.raw bs).size = bs.length := rfl
      have place' : (address + UInt64.ofNat i).toNat = a.base.toNat + extent older + i := by
        rw [UInt64.toNat_add, UInt64.toNat_ofNat']
        omega
      have inside : Region.contains ⟨a.base, code.toArray, true⟩ (address + UInt64.ofNat i) := by
        rw [contains_code_iff]
        omega
      rw [Program.byte?_eq finished.apart finished.mapped inside, place', Nat.add_assoc,
        Nat.add_sub_cancel_left, ← List.getElem?_drop, bytes]
      exact List.getElem?_append_left short ▸ found

section Calls

theorem Laid.calls (laid : Laid a) (calls : List Call) : Laid (calls.foldl Assembler.call a) :=
  List.foldlRecOn calls Assembler.call laid fun _ laid c _ => laid.call c

theorem base_foldl (calls : List Call) : (calls.foldl call a).base = a.base :=
  List.foldlRecOn (motive := fun b => b.base = a.base) calls call rfl
    fun _ same c _ => (base_call c).trans same

theorem statements_foldl (calls : List Call) :
    ∃ newer, (calls.foldl call a).statements = newer ++ a.statements := by
  induction calls generalizing a with
  | nil => exact ⟨[], rfl⟩
  | cons c rest ih =>
      obtain ⟨newer, later⟩ := ih (a := a.call c)
      rw [List.foldl_cons, later]
      by_cases emits : ∃ s, c = .emit s
      · obtain ⟨s, rfl⟩ := emits
        refine ⟨newer ++ [(a.position, s)], ?_⟩
        rw [List.append_assoc]
        rfl
      · rw [not_exists] at emits
        exact ⟨newer, by rw [(call_keeps_code emits).2]⟩

theorem labelAddress?_foldl {name : String} {address : Word}
    (named : a.labelAddress? name = some address) (calls : List Call) :
    (calls.foldl call a).labelAddress? name = some address :=
  List.foldlRecOn (motive := fun b => b.labelAddress? name = some address) calls call named
    fun _ named c _ => labelAddress?_call_of_some named c

theorem labelAddress?_foldl_of_not_mem {name : String} {calls : List Call}
    (free : a.labelAddress? name = none) (undefined : .label name ∉ calls) :
    (calls.foldl call a).labelAddress? name = none := by
  refine List.foldlRecOn (motive := fun b => b.labelAddress? name = none) calls call free ?_
  intro b free c hc
  have other : c ≠ .label name := fun same => undefined (same ▸ hc)
  rw [labelAddress?_call, if_neg fun h => other h.1, free]

theorem entry_foldl_of_not_mem {calls : List Call} (unset : ∀ l, .entry l ∉ calls) :
    (calls.foldl call a).entry = a.entry := by
  refine List.foldlRecOn (motive := fun b => b.entry = a.entry) calls call rfl ?_
  intro b same c hc
  rw [entry_call]
  split
  · exact absurd hc (unset _)
  · exact same

/-- The entry label is the one that was set last. -/
theorem entry_foldl_of_last {before rest : List Call} {l : String} (last : ∀ l', .entry l' ∉ rest) :
    ((before ++ .entry l :: rest).foldl call a).entry = some l := by
  rw [List.foldl_append, List.foldl_cons, entry_foldl_of_not_mem last]
  rfl

end Calls

theorem after_append (base : Word) (before rest : List Call) :
    after base (before ++ rest) = rest.foldl call (after base before) := List.foldl_append

theorem base_after (base : Word) (calls : List Call) : (after base calls).base = base :=
  base_foldl calls

theorem laid_after (base : Word) (calls : List Call) : Laid (after base calls) :=
  (Laid.new base).calls calls

/-- A label stands where the code was when it was first defined. -/
theorem labelAddress?_after {base : Word} {before rest : List Call} {l : String}
    (first : .label l ∉ before) :
    (after base (before ++ .label l :: rest)).labelAddress? l = some (after base before).position := by
  have free : (after base before).labelAddress? l = none := labelAddress?_foldl_of_not_mem rfl first
  rw [after_append, List.foldl_cons]
  apply labelAddress?_foldl
  rw [labelAddress?_call, if_pos ⟨rfl, free⟩]

/-- A statement stands at the address at which it was emitted. -/
theorem emitted_after (base : Word) (before rest : List Call) (s : Statement) :
    ∃ newer, (after base (before ++ .emit s :: rest)).statements =
      newer ++ ((after base before).position, s) :: (after base before).statements := by
  rw [after_append, List.foldl_cons]
  exact statements_foldl rest

/-- A finished program has every statement at the address at which it was emitted, every label at the
    address of what was emitted next, and the entry where it was put. -/
theorem finish_faithful {base : Word} {calls : List Call} {p : Program}
    (finished : (after base calls).finish = .ok p) :
    (∀ before s rest, calls = before ++ .emit s :: rest →
      s.In p (after base before).position ((after base (before ++ [.emit s])).upcoming rest)) ∧
    (∀ before l rest, calls = before ++ .label l :: rest → .label l ∉ before →
      p.symbol? l = some ((after base before).upcoming rest)) ∧
    (∀ before l rest, calls = before ++ .entry l :: rest → (∀ l', .entry l' ∉ rest) →
      p.symbol? l = some p.entry) ∧
    ((∀ l, .entry l ∉ calls) → p.entry = base) ∧
    ∃ r ∈ p.regions, r.executable ∧ r.base = base ∧
      r.limit = (after base calls).position.toNat := by
  have laid := laid_after base calls
  obtain ⟨code, done⟩ := finish_ok laid finished
  refine ⟨?_, ?_, ?_, ?_, ?_⟩
  · rintro before s rest rfl
    obtain ⟨newer, emitted⟩ := emitted_after base before rest s
    have here := (laid_after base before).position
    rw [base_after] at here
    rw [upcoming_eq, after_append]
    exact done.statement_in emitted (by rw [base_after]; exact here)
  · rintro before l rest rfl first
    rw [upcoming_eq, done.symbol]
    exact labelAddress?_after first
  · rintro before l rest rfl last
    have entry := done.entry
    rw [after, entry_foldl_of_last last] at entry
    exact entry
  · intro unset
    have entry := done.entry
    rw [after, entry_foldl_of_not_mem unset] at entry
    exact entry.trans (base_after base calls)
  · refine ⟨_, done.mapped, rfl, base_after base calls, ?_⟩
    have fits := done.fits
    have length := length_encoded done.encoded
    simp only [laid.position, UInt64.toNat_add, UInt64.toNat_ofNat', Region.limit, List.size_toArray]
    omega

/-- A loop with a branch to a label behind it and a jump to one before it. -/
theorem finish_faithful_loop :
    let calls : List Call := [.label "top", .emit (.branchTo .ne .r0 (.imm 0) "done"),
      .emit (.jumpTo "top"), .label "done", .emit (.raw [0xff, 0x0c]), .entry "done"]
    ∃ p, (after 0x100 calls).finish = .ok p ∧
      (Statement.branchTo .ne .r0 (.imm 0) "done").In p 0x100 0x114 ∧
      (Statement.jumpTo "top").In p 0x114 0x11e ∧ p.byte? 0x11f = some 0x0c ∧
      p.symbol? "top" = some 0x100 ∧ p.symbol? "done" = some 0x11e ∧ p.symbol? "done" = some p.entry := by
  intro calls
  obtain ⟨p, finished⟩ : ∃ p, (after 0x100 calls).finish = .ok p := ⟨_, rfl⟩
  obtain ⟨statements, labels, entry, -, -⟩ := finish_faithful finished
  refine ⟨p, finished, ?_, ?_, ?_, ?_, ?_, ?_⟩
  · exact statements [.label "top"] _ _ rfl
  · exact statements [.label "top", .emit (.branchTo .ne .r0 (.imm 0) "done")] _ _ rfl
  · exact statements (calls.take 4) _ _ rfl 1 0x0c rfl
  · exact labels [] "top" _ rfl (by decide)
  · exact labels (calls.take 3) "done" _ rfl (by decide)
  · exact entry (calls.take 5) "done" [] rfl nofun

end Assembler

end PathSearch
