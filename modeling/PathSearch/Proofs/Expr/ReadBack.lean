import Mathlib.Data.List.TakeWhile
import PathSearch.Proofs.Expr.Occurrence
import PathSearch.Proofs.Expr.Printed
import PathSearch.Proofs.Expr.Slice

/-! # Reading the text of an expression back

A reader takes the text of an expression apart again. It goes from word to word, as no name, number or
sign of an operator has a mark in it, and takes slices before the unary operators in front. So it gives
the settled form of the expression, and where no slice is taken of a unary operation two expressions with
one text are the same.
-/

namespace PathSearch

namespace Text

/-- The characters that end a word. -/
def marks : List Char := [' ', ',', '(', ')', '[', ']', ':', '#']

/-- A character of a name, a number or the sign of an operator. -/
def isPlain (c : Char) : Bool := !marks.contains c

/-- The word in front of the text. -/
def front (cs : List Char) : List Char := cs.takeWhile isPlain

/-- The text behind the word in front. -/
def behind (cs : List Char) : List Char := cs.dropWhile isPlain

/-- Passes over a character that has to come next. -/
def expect (c : Char) : List Char → Option (List Char)
  | d :: cs => if d = c then some cs else none
  | [] => none

/-- No word goes on into the text. -/
def Ends (rest : List Char) : Prop := ∀ c ∈ rest.head?, isPlain c = false

variable {w cs rest : List Char} {c : Char}

theorem Ends.cons (mark : isPlain c = false) : Ends (c :: cs) := by
  rintro d ⟨⟩
  exact mark

theorem front_append (plain : ∀ c ∈ w, isPlain c = true) (ends : Ends rest) : front (w ++ rest) = w := by
  rw [front, List.takeWhile_append_of_pos plain]
  cases rest with
  | nil => exact List.append_nil w
  | cons c cs => rw [List.takeWhile_cons_of_neg (by simp [ends c rfl]), List.append_nil]

theorem behind_append (plain : ∀ c ∈ w, isPlain c = true) (ends : Ends rest) :
    behind (w ++ rest) = rest := by
  rw [behind, List.dropWhile_append_of_pos plain]
  cases rest with
  | nil => rfl
  | cons c cs => exact List.dropWhile_cons_of_neg (by simp [ends c rfl])

theorem expect_self (c : Char) (cs : List Char) : expect c (c :: cs) = some cs := if_pos rfl

theorem expect_some (passed : expect c cs = some rest) : cs = c :: rest := by
  unfold expect at passed
  split at passed
  · split at passed
    · rename_i same
      cases passed
      rw [same]
    · cases passed
  · cases passed

theorem length_behind (cs : List Char) : (behind cs).length ≤ cs.length := by
  exact (List.dropWhile_sublist _).length_le

theorem plain_toDigits {b n : Nat} (hb : 1 < b) (atMost : b ≤ 16) :
    ∀ c ∈ Nat.toDigits b n, isPlain c = true := by
  intro c hc
  obtain ⟨d, small, rfl⟩ := exists_of_mem_toDigits hb hc
  have : d < 16 := Nat.lt_of_lt_of_le small atMost
  interval_cases d <;> rfl

end Text

namespace Expr

open Text

section Names

/-- A text that may follow an expression. -/
def Closes (rest : List Char) : Prop := ∀ c ∈ rest.head?, c ∈ [' ', ',', ')', '[']

/-- A name that is a word of its own: letters, digits and underscores behind a letter, among others. -/
def IsName (name : String) : Prop :=
  ∃ c cs, name.toList = c :: cs ∧ c ≠ '-' ∧ c ≠ '~' ∧ ∀ d ∈ c :: cs, isPlain d = true

variable {cs rest : List Char} {c : Char}

theorem Closes.ends (closes : Closes rest) : Ends rest := by
  intro c hc
  have among := closes c hc
  simp only [List.mem_cons, List.not_mem_nil, or_false] at among
  rcases among with rfl | rfl | rfl | rfl <;> rfl

theorem Closes.cons (closing : c ∈ [' ', ',', ')', '[']) : Closes (c :: cs) := by
  rintro d ⟨⟩
  exact closing

theorem Closes.other (closes : Closes rest) (other : c ∉ [' ', ',', ')', '[']) (cs : List Char) :
    rest ≠ c :: cs := by
  rintro rfl
  exact other (closes c rfl)

/-- Names of letters, digits and underscores are words. -/
theorem isName_of_alphanum (letter : c.isAlpha = true)
    (each : ∀ d ∈ cs, d.isAlphanum = true ∨ d = '_') : IsName (String.ofList (c :: cs)) := by
  have plain {d : Char} (known : d.isAlphanum = true ∨ d = '_') : isPlain d = true := by
    by_contra mark
    simp only [isPlain, marks, List.contains_eq_mem, List.mem_cons, List.not_mem_nil, or_false,
      Bool.not_eq_true', decide_eq_false_iff_not, not_not] at mark
    rcases mark with rfl | rfl | rfl | rfl | rfl | rfl | rfl | rfl <;> revert known <;> decide
  refine ⟨c, cs, String.toList_ofList, ?_, ?_, ?_⟩
  · rintro rfl
    cases letter
  · rintro rfl
    cases letter
  · refine List.forall_mem_cons.mpr ⟨plain (.inl ?_), fun d hd => plain (each d hd)⟩
    rw [Char.isAlphanum, letter, Bool.true_or]

theorem plain_symbol (op : Op) : ∀ c ∈ op.symbol.toList, isPlain c = true := by
  rw [← List.all_eq_true]
  cases op <;> rfl

end Names

section Reader

/-- Reads one slice. -/
def readSlice (cs : List Char) : Option ((Nat × Nat) × List Char) := do
  let cs ← expect '[' cs
  let high ← digits? 10 (front cs)
  let cs' ← expect ':' (behind cs)
  let low ← digits? 10 (front cs')
  let rest ← expect ']' (behind cs')
  pure ((high, low), rest)

theorem length_readSlice {cs rest : List Char} {slice : Nat × Nat}
    (read : readSlice cs = some (slice, rest)) : rest.length < cs.length := by
  simp only [readSlice, Option.bind_eq_bind, Option.bind_eq_some_iff] at read
  obtain ⟨cs₁, first, high, -, cs₂, second, low, -, last, third, same⟩ := read
  cases same
  have := length_behind cs₁
  have := length_behind cs₂
  have second := congrArg List.length (expect_some second)
  have third := congrArg List.length (expect_some third)
  rw [expect_some first, List.length_cons]
  rw [List.length_cons] at second third
  omega

/-- Takes the slices that stand behind an expression. -/
def readSlices (e : Expr) (cs : List Char) : Expr × List Char :=
  match _found : readSlice cs with
  | some ((high, low), rest) => readSlices (e.sliceInside high low) rest
  | none => (e, cs)
termination_by cs.length
decreasing_by exact length_readSlice _found

/-- The operation of the sign that stands between two operands. -/
def joined? (sign : List Char) (l r : Expr) : Option Expr :=
  if sign = ['+', '+'] then some (.concat l r)
  else (Op.all.find? fun op => !op.isUnary && op.symbol.toList == sign).map (.binary · l r)

/-- The extension with the given name. -/
def extended? (name : List Char) (x : Expr) : Option Expr :=
  match name with
  | 'z' :: 'e' :: 'x' :: 't' :: ds => (digits? 10 ds).map (.zext x)
  | 's' :: 'e' :: 'x' :: 't' :: ds => (digits? 10 ds).map (.sext x)
  | _ => none

/-- Reads a choice or an extension from behind its bracket. -/
def readCall (read : List Char → Option (Expr × List Char)) (name cs : List Char) :
    Option (Expr × List Char) := do
  let (x, cs) ← read cs
  if name = ['i', 't', 'e'] then
    let cs ← expect ',' cs
    let cs ← expect ' ' cs
    let (y, cs) ← read cs
    let cs ← expect ',' cs
    let cs ← expect ' ' cs
    let (n, cs) ← read cs
    let cs ← expect ')' cs
    pure (.ite x y n, cs)
  else
    let cs ← expect ')' cs
    pure (← extended? name x, cs)

/-- Reads two operands and the sign between them from behind their bracket. -/
def readPair (read : List Char → Option (Expr × List Char)) (cs : List Char) :
    Option (Expr × List Char) := do
  let (l, cs) ← read cs
  let cs ← expect ' ' cs
  let sign := front cs
  let cs ← expect ' ' (behind cs)
  let (r, cs) ← read cs
  let cs ← expect ')' cs
  pure (← joined? sign l r, cs)

/-- Reads what starts with a word: a constant, a choice, an extension or a variable. -/
def readWord (widths : String → Nat) (read : List Char → Option (Expr × List Char))
    (cs : List Char) : Option (Expr × List Char) :=
  match behind cs with
  | '#' :: rest => do
      let v ← number? (String.ofList (front cs))
      let bits ← digits? 10 (front rest)
      pure (.const (UInt64.ofNat v) bits, behind rest)
  | '(' :: rest => readCall read (front cs) rest
  | rest => some (.var (String.ofList (front cs)) (widths (String.ofList (front cs))), rest)

/-- Reads an expression, given how its operands are read. -/
def readNext (widths : String → Nat) (read : List Char → Option (Expr × List Char)) :
    List Char → Option (Expr × List Char)
  | '-' :: cs => (read cs).map fun (x, rest) => (.unary .neg x, rest)
  | '~' :: cs => (read cs).map fun (x, rest) => (.unary .not x, rest)
  | '(' :: cs => (readPair read cs).map fun (e, rest) => readSlices e rest
  | cs => (readWord widths read cs).map fun (e, rest) => readSlices e rest

/-- Reads an expression from the front of a text, to a depth. The widths of variables are not in the
    text. -/
def readFor (widths : String → Nat) : (fuel : Nat) → List Char → Option (Expr × List Char)
  | 0, _ => none
  | fuel + 1, cs => readNext widths (readFor widths fuel) cs

end Reader

section ReadBack

variable {e l r x : Expr} {rest : List Char} {read : List Char → Option (Expr × List Char)}
  {widths : String → Nat}

theorem readSlice_sliceChars (high low : Nat) (rest : List Char) :
    readSlice (sliceChars high low ++ rest) = some ((high, low), rest) := by
  have digits (n : Nat) {c : Char} (mark : isPlain c = false) (cs : List Char) :
      front (Nat.toDigits 10 n ++ c :: cs) = Nat.toDigits 10 n ∧
        behind (Nat.toDigits 10 n ++ c :: cs) = c :: cs :=
    have plain := plain_toDigits (n := n) (b := 10) (by decide) (by decide)
    ⟨front_append plain (.cons mark), behind_append plain (.cons mark)⟩
  have number (n : Nat) : digits? 10 (Nat.toDigits 10 n) = some n :=
    digits?_toDigits (by decide) (by decide) n
  simp only [readSlice, sliceChars, List.cons_append, List.append_assoc, List.nil_append, expect_self,
    Option.bind_eq_bind, Option.bind_some, (digits high (c := ':') rfl _).1,
    (digits high (c := ':') rfl _).2, (digits low (c := ']') rfl _).1, (digits low (c := ']') rfl _).2,
    number]
  rfl

theorem readSlices_sliceChars (e : Expr) (high low : Nat) (rest : List Char) :
    readSlices e (sliceChars high low ++ rest) = readSlices (e.sliceInside high low) rest := by
  rw [readSlices]
  split
  · rename_i found
    rw [readSlice_sliceChars] at found
    cases found
    rfl
  · rename_i found
    rw [readSlice_sliceChars] at found
    cases found

theorem readSlices_of_none (none : readSlice rest = none) : readSlices e rest = (e, rest) := by
  rw [readSlices]
  split
  · rename_i found
    rw [none] at found
    cases found
  · rfl

theorem readSlices_cons {c : Char} (other : c ≠ '[') (cs : List Char) :
    readSlices e (c :: cs) = (e, c :: cs) := by
  apply readSlices_of_none
  have missing : expect '[' (c :: cs) = none := if_neg other
  rw [readSlice, missing]
  rfl

theorem readSlices_nil : readSlices e [] = (e, []) := readSlices_of_none rfl

/-- Slices behind a unary operation are taken of its operand. -/
theorem readSlices_unary (op : Op) (x : Expr) (cs : List Char) :
    readSlices (.unary op x) cs = (.unary op (readSlices x cs).1, (readSlices x cs).2) := by
  fun_induction readSlices x cs with
  | case1 x cs high low rest found ih =>
      rw [readSlices]
      split
      · rename_i found'
        rw [found] at found'
        cases found'
        exact ih
      · rename_i found'
        rw [found] at found'
        cases found'
  | case2 x cs none => exact readSlices_of_none none

/-- The expression is read from the front of every text that may follow it. -/
def Known (read : List Char → Option (Expr × List Char)) (e : Expr) : Prop :=
  ∀ rest, Closes rest → read (e.chars ++ rest) = some (readSlices e.settled rest)

theorem Known.closed (known : Known read e) {c : Char} (closing : c ∈ [' ', ',', ')'])
    (cs : List Char) : read (e.chars ++ c :: cs) = some (e.settled, c :: cs) := by
  have other : c ≠ '[' := by
    rintro rfl
    revert closing
    decide
  have closes : Closes (c :: cs) := .cons (by
    simp only [List.mem_cons, List.not_mem_nil, or_false] at closing ⊢
    tauto)
  rw [known _ closes, readSlices_cons other]

theorem joined?_symbol {op : Op} (binary : op.isUnary = false) (l r : Expr) :
    joined? op.symbol.toList l r = some (.binary op l r) := by
  cases op <;> first | rfl | cases binary

theorem readPair_chars (hl : Known read l) (hr : Known read r) {sign : List Char}
    (plain : ∀ c ∈ sign, isPlain c = true) (rest : List Char) :
    readPair read (l.chars ++ ' ' :: (sign ++ ' ' :: (r.chars ++ ')' :: rest))) =
      (joined? sign l.settled r.settled).map fun e => (e, rest) := by
  have space (cs : List Char) : Ends (' ' :: cs) := .cons rfl
  simp only [readPair, hl.closed (c := ' ') (by decide), hr.closed (c := ')') (by decide),
    Option.bind_eq_bind, Option.bind_some, expect_self, front_append plain (space _),
    behind_append plain (space _)]
  cases joined? sign l.settled r.settled <;> rfl

theorem readCall_ite {c y n : Expr} (hc : Known read c) (hy : Known read y) (hn : Known read n)
    (rest : List Char) :
    readCall read ['i', 't', 'e']
        (c.chars ++ ',' :: ' ' :: (y.chars ++ ',' :: ' ' :: (n.chars ++ ')' :: rest))) =
      some (.ite c.settled y.settled n.settled, rest) := by
  simp only [readCall, hc.closed (c := ',') (by decide), hy.closed (c := ',') (by decide),
    hn.closed (c := ')') (by decide), Option.bind_eq_bind, Option.bind_some, expect_self, if_true]
  rfl

theorem readCall_extended (hx : Known read x) {name : List Char} (other : name ≠ ['i', 't', 'e'])
    (rest : List Char) :
    readCall read name (x.chars ++ ')' :: rest) =
      (extended? name x.settled).map fun e => (e, rest) := by
  simp only [readCall, hx.closed (c := ')') (by decide), Option.bind_eq_bind, Option.bind_some,
    expect_self, if_neg other]
  cases extended? name x.settled <;> rfl

theorem readNext_word {c : Char} {cs : List Char} (notNeg : c ≠ '-') (notNot : c ≠ '~')
    (notPair : c ≠ '(') :
    readNext widths read (c :: cs) =
      (readWord widths read (c :: cs)).map fun (e, rest) => readSlices e rest := by
  unfold readNext
  split
  · rename_i same
    cases same
    exact absurd rfl notNeg
  · rename_i same
    cases same
    exact absurd rfl notNot
  · rename_i same
    cases same
    exact absurd rfl notPair
  · rfl

theorem readWord_const (v : Word) (bits : Nat) (closes : Closes rest) :
    readWord widths read ((Expr.const v bits).chars ++ rest) = some (.const v bits, rest) := by
  have hex : ∀ c ∈ '0' :: 'x' :: Nat.toDigits 16 v.toNat, isPlain c = true := by
    intro c hc
    rcases List.mem_cons.mp hc with rfl | hc
    · rfl
    rcases List.mem_cons.mp hc with rfl | hc
    · rfl
    · exact plain_toDigits (by decide) (by decide) c hc
  have dec := plain_toDigits (b := 10) (n := bits) (by decide) (by decide)
  have split : (Expr.const v bits).chars ++ rest =
      ('0' :: 'x' :: Nat.toDigits 16 v.toNat) ++ '#' :: (Nat.toDigits 10 bits ++ rest) := by
    simp [chars]
  have value : number? (String.ofList ('0' :: 'x' :: Nat.toDigits 16 v.toNat)) = some v.toNat := by
    simp only [number?, String.toList_ofList]
    exact digits?_toDigits (by decide) (by decide) _
  rw [readWord, split, behind_append hex (.cons rfl), front_append hex (.cons rfl), value]
  simp only [front_append dec closes.ends, behind_append dec closes.ends,
    digits?_toDigits (b := 10) (by decide) (by decide), Option.bind_eq_bind, Option.bind_some,
    UInt64.ofNat_toNat]
  rfl

theorem readWord_var {name : String} (plain : ∀ c ∈ name.toList, isPlain c = true)
    (closes : Closes rest) :
    readWord widths read (name.toList ++ rest) = some (.var name (widths name), rest) := by
  rw [readWord, behind_append plain closes.ends, front_append plain closes.ends, String.ofList_toList]
  split
  · exact absurd rfl (closes.other (by decide) _)
  · exact absurd rfl (closes.other (by decide) _)
  · rfl

theorem readWord_call {name : List Char} (plain : ∀ c ∈ name, isPlain c = true) (cs : List Char) :
    readWord widths read (name ++ '(' :: cs) = readCall read name cs := by
  rw [readWord, behind_append plain (.cons rfl), front_append plain (.cons rfl)]
  rfl

theorem readNext_extended (hx : Known read x) {c : Char} {cs : List Char} {bits : Nat}
    (plain : ∀ d ∈ c :: cs, isPlain d = true) (notNeg : c ≠ '-') (notNot : c ≠ '~')
    (other : c :: cs ++ Nat.toDigits 10 bits ≠ ['i', 't', 'e'])
    (extended : extended? (c :: cs ++ Nat.toDigits 10 bits) x.settled = some e) (rest : List Char) :
    readNext widths read (c :: cs ++ Nat.toDigits 10 bits ++ '(' :: (x.chars ++ ')' :: rest)) =
      some (readSlices e rest) := by
  have notPair : c ≠ '(' := by
    rintro rfl
    exact absurd (plain _ (.head _)) (by decide)
  have plain' : ∀ d ∈ c :: cs ++ Nat.toDigits 10 bits, isPlain d = true := by
    intro d hd
    rcases List.mem_append.mp hd with hd | hd
    · exact plain d hd
    · exact plain_toDigits (by decide) (by decide) d hd
  have word : readWord widths read (c :: cs ++ Nat.toDigits 10 bits ++ '(' :: (x.chars ++ ')' :: rest)) =
      some (e, rest) := by
    rw [readWord_call plain', readCall_extended hx other, extended]
    rfl
  exact (readNext_word notNeg notNot notPair).trans (congrArg (Option.map _) word)

theorem sizeOf_pos (e : Expr) : 0 < sizeOf e := by
  cases e <;> simp

/-- The widths of the variables are the given ones, and their names are words. -/
def Named (widths : String → Nat) (e : Expr) : Prop :=
  ∀ p ∈ e.occurrences, IsName p.1 ∧ widths p.1 = p.2

theorem Named.of_mem_operands (named : e.Named widths) (hx : x ∈ e.operands) : x.Named widths :=
  fun p hp => named p (occurrences_of_mem_operands hx hp)

/-- One step reads an expression of which it knows how to read the operands. A slice is read by the step
    that reads its operand. -/
theorem known_readNext (h : e.WellFormed) (named : e.Named widths)
    (known : ∀ x ∈ e.operands, Known read x) (node : ∀ high low x, e ≠ .extract high low x) :
    Known (readNext widths read) e := by
  intro rest closes
  cases e with
  | extract high low x => exact absurd rfl (node high low x)
  | const v bits =>
      refine (readNext_word (by decide) (by decide) (by decide)).trans ?_
      exact congrArg (Option.map _) (readWord_const v bits closes)
  | var name bits =>
      obtain ⟨⟨c, cs, spelled, notNeg, notNot, plain⟩, width⟩ := named (name, bits) (.head _)
      have notPair : c ≠ '(' := by
        rintro rfl
        exact absurd (plain _ (.head _)) (by decide)
      have word : readWord widths read (c :: cs ++ rest) = some (.var name bits, rest) := by
        rw [← spelled, readWord_var (spelled ▸ plain) closes, width]
      rw [chars, spelled]
      exact (readNext_word notNeg notNot notPair).trans (congrArg (Option.map _) word)
  | unary op x =>
      have operand := known x (.head _) rest closes
      rw [settled, readSlices_unary]
      cases op with
      | neg | not => exact congrArg (Option.map _) operand
      | _ => cases h.1
  | binary op l r =>
      have split : (Expr.binary op l r).chars ++ rest =
          '(' :: (l.chars ++ ' ' :: (op.symbol.toList ++ ' ' :: (r.chars ++ ')' :: rest))) := by
        simp [chars]
      have pair := readPair_chars (known l (.head _)) (known r (.tail _ (.head _))) (plain_symbol op) rest
      rw [joined?_symbol h.1] at pair
      rw [split]
      exact congrArg (Option.map _) pair
  | concat hi lo =>
      have split : (Expr.concat hi lo).chars ++ rest =
          '(' :: (hi.chars ++ ' ' :: (['+', '+'] ++ ' ' :: (lo.chars ++ ')' :: rest))) := by
        simp [chars]
      have plain : ∀ c ∈ ['+', '+'], isPlain c = true := List.all_eq_true.mp rfl
      have pair := readPair_chars (known hi (.head _)) (known lo (.tail _ (.head _))) plain rest
      rw [split]
      exact congrArg (Option.map _) pair
  | ite c y n =>
      have split : (Expr.ite c y n).chars ++ rest = ['i', 't', 'e'] ++ '(' ::
          (c.chars ++ ',' :: ' ' :: (y.chars ++ ',' :: ' ' :: (n.chars ++ ')' :: rest))) := by
        simp [chars]
      have call := readCall_ite (known c (.head _)) (known y (.tail _ (.head _)))
        (known n (.tail _ (.tail _ (.head _)))) rest
      rw [split]
      refine (readNext_word (by decide) (by decide) (by decide)).trans ?_
      exact congrArg (Option.map _) ((readWord_call (List.all_eq_true.mp rfl) _).trans call)
  | zext x bits =>
      have split : (Expr.zext x bits).chars ++ rest =
          ['z', 'e', 'x', 't'] ++ Nat.toDigits 10 bits ++ '(' :: (x.chars ++ ')' :: rest) := by
        simp [chars]
      have extended (y : Expr) : extended? (['z', 'e', 'x', 't'] ++ Nat.toDigits 10 bits) y =
          some (.zext y bits) :=
        congrArg (Option.map _) (digits?_toDigits (by decide) (by decide) bits)
      rw [split]
      exact readNext_extended (known x (.head _)) (List.all_eq_true.mp rfl) (by decide) (by decide)
        (by simp) (extended _) rest
  | sext x bits =>
      have split : (Expr.sext x bits).chars ++ rest =
          ['s', 'e', 'x', 't'] ++ Nat.toDigits 10 bits ++ '(' :: (x.chars ++ ')' :: rest) := by
        simp [chars]
      have extended (y : Expr) : extended? (['s', 'e', 'x', 't'] ++ Nat.toDigits 10 bits) y =
          some (.sext y bits) :=
        congrArg (Option.map _) (digits?_toDigits (by decide) (by decide) bits)
      rw [split]
      exact readNext_extended (known x (.head _)) (List.all_eq_true.mp rfl) (by decide) (by decide)
        (by simp) (extended _) rest

/-- To a depth that is at least its own, every expression is read back. -/
theorem known_readFor {e : Expr} (h : e.WellFormed) (named : e.Named widths) {fuel : Nat}
    (enough : sizeOf e ≤ fuel) : Known (readFor widths fuel) e := by
  have smaller (x : Expr) (hx : x ∈ e.operands) : sizeOf x < sizeOf e := sizeOf_lt_of_mem_operands hx
  have pos := e.sizeOf_pos
  by_cases slice : ∃ high low x, e = .extract high low x
  · obtain ⟨high, low, x, rfl⟩ := slice
    have below := smaller x (.head _)
    have operand := known_readFor h.2.2 (named.of_mem_operands (.head _)) (by omega : sizeOf x ≤ fuel)
    intro rest closes
    -- The slice is read by the step that reads its operand, and needs no depth of its own.
    have slice : Closes (sliceChars high low ++ rest) := .cons (by decide)
    rw [chars, List.append_assoc, operand _ slice, readSlices_sliceChars, settled]
  · obtain ⟨n, rfl⟩ : ∃ n, fuel = n + 1 := ⟨fuel - 1, by omega⟩
    refine known_readNext h named (fun x hx => ?_) fun high low x same => slice ⟨high, low, x, same⟩
    have below := smaller x hx
    exact known_readFor (h.of_mem_operands hx) (named.of_mem_operands hx) (by omega)
termination_by sizeOf e

/-- A text is read back as the settled form of the expression. -/
theorem readFor_text (h : e.WellFormed) (named : e.Named widths) {fuel : Nat} (enough : sizeOf e ≤ fuel) :
    readFor widths fuel e.text.toList = some (e.settled, []) := by
  have read := known_readFor h named enough [] nofun
  rwa [List.append_nil, readSlices_nil, ← toList_text] at read

end ReadBack

section Unambiguous

variable {a b : Expr} {widths : String → Nat}

/-- Two expressions have one text exactly if they have one settled form. So where no slice is taken of a
    unary operation, the text tells the expression. -/
theorem text_eq_iff_settled (ha : a.WellFormed) (hb : b.WellFormed) (na : a.Named widths)
    (nb : b.Named widths) :
    (a.text = b.text ↔ a.settled = b.settled) ∧
      (a.Straight → b.Straight → a.text = b.text → a = b) := by
  have settles : a.text = b.text → a.settled = b.settled := by
    intro same
    have first := readFor_text ha na (Nat.le_max_left _ (sizeOf b))
    have second := readFor_text hb nb (Nat.le_max_right (sizeOf a) _)
    rw [same, second] at first
    exact (congrArg Prod.fst (Option.some.inj first)).symm
  refine ⟨⟨settles, fun same => ?_⟩, fun sa sb same => ?_⟩
  · rw [text_eq_iff_chars, ← chars_settled, same, chars_settled]
  · rw [← settled_of_straight sa, settles same, settled_of_straight sb]

/-- A name may have digits and underscores behind its first letter. -/
theorem text_eq_iff_settled_names :
    let a : Expr := .extract 7 4 (.unary .neg (.binary .sub (.var "in_1" 8) (.const 1 8)))
    let b : Expr := .unary .neg (.extract 7 4 (.binary .sub (.var "in_1" 8) (.const 1 8)))
    a.text = "-(in_1 - 0x1#8)[7:4]" ∧ a.settled = b ∧ a.text = b.text := by
  intro a b
  have ha : a.WellFormed := by simp [a, WellFormed, Expr.width, Op.isUnary, Op.isComparison]
  have hb : b.WellFormed := by simp [b, WellFormed, Expr.width, Op.isUnary, Op.isComparison]
  have each : ∀ d ∈ ['n', '_', '1'], d.isAlphanum = true ∨ d = '_' := by
    rw [List.forall_mem_cons, List.forall_mem_cons, List.forall_mem_singleton]
    decide
  have name : IsName (String.ofList ['i', 'n', '_', '1']) := isName_of_alphanum (by decide) each
  have na : a.Named fun _ => 8 := by
    intro p hp
    obtain rfl := List.mem_singleton.mp (hp : p ∈ [("in_1", 8)])
    exact ⟨name, rfl⟩
  exact ⟨by decide, rfl, (text_eq_iff_settled ha hb na na).1.mpr rfl⟩

/-- A slice of a negation and the negation of a slice have one text and different values. -/
theorem text_ambiguous :
    let a : Expr := .extract 7 4 (.unary .neg (.var "x" 8))
    let b : Expr := .unary .neg (.extract 7 4 (.var "x" 8))
    a.Built ∧ b.Built ∧ a.text = "-x[7:4]" ∧ b.text = "-x[7:4]" ∧ a ≠ b ∧
      a.value (fun _ => 1) = 15 ∧ b.value (fun _ => 1) = 0 := by
  intro a b
  have var : (Expr.var "x" 8).Built := .build (c := .var "x" 8) nofun rfl
  have built {c : Construction} {e x : Expr} (hx : x.Built) (parts : c.operands = [x])
      (passes : c.build = .ok e) : e.Built :=
    .build (fun y hy => List.mem_singleton.mp (parts ▸ hy) ▸ hx) passes
  have neg : (Expr.unary .neg (.var "x" 8)).Built := built (c := .unary .neg (.var "x" 8)) var rfl rfl
  have low : (Expr.extract 7 4 (.var "x" 8)).Built := built (c := .extract 7 4 (.var "x" 8)) var rfl (by cbv)
  refine ⟨built (c := .extract 7 4 _) neg rfl (by cbv), built (c := .unary .neg _) low rfl rfl, by decide,
    by decide, by simp [a, b], ?_, ?_⟩
  · rw [value, evaluate_eq_eval]
    decide
  · rw [value, evaluate_eq_eval]
    decide

end Unambiguous

end Expr

end PathSearch
