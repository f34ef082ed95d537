import Mathlib.Tactic.IntervalCases
import PathSearch.Expr.Printer

/-! # The text of an expression, sign by sign

A slice stands behind what it is taken from and a unary operator in front of its operand, so of a text
with both nothing tells which was applied first. The settled form of an expression takes the slices
first, and has the same text.
-/

namespace PathSearch

namespace Text

section Digits

variable {b n : Nat}

theorem hexDigit?_digitChar {d : Nat} (hd : d < 16) : hexDigit? d.digitChar = some d := by
  interval_cases d <;> decide

/-- Digits in a base are those of the numbers below it. -/
theorem exists_of_mem_toDigits (hb : 1 < b) {c : Char} (hc : c ∈ Nat.toDigits b n) :
    ∃ d < b, c = d.digitChar := by
  induction n using Nat.strongRecOn with
  | ind n ih =>
      rw [Nat.toDigits_eq_if hb] at hc
      split at hc
      · rename_i small
        exact ⟨n, small, List.mem_singleton.mp hc⟩
      · rcases List.mem_append.mp hc with upper | last
        · exact ih (n / b) (Nat.div_lt_self (by omega) hb) upper
        · exact ⟨n % b, Nat.mod_lt n (by omega), List.mem_singleton.mp last⟩

theorem foldlM_toDigits (hb : 1 < b) (atMost : b ≤ 16) (n : Nat) :
    (Nat.toDigits b n).foldlM (fun n c => do
      let d ← hexDigit? c
      guard (d < b)
      pure (n * b + d)) 0 = some n := by
  have step (m : Nat) {d : Nat} (hd : d < b) : (do
      let d ← hexDigit? d.digitChar
      guard (d < b)
      pure (m * b + d)) = some (m * b + d) := by
    simp [hexDigit?_digitChar (Nat.lt_of_lt_of_le hd atMost), hd]
  induction n using Nat.strongRecOn with
  | ind n ih =>
      rw [Nat.toDigits_eq_if hb]
      split
      · rename_i small
        rw [List.foldlM_cons, step 0 small]
        simp
      · have last : n % b < b := Nat.mod_lt n (by omega)
        rw [List.foldlM_append, ih (n / b) (Nat.div_lt_self (by omega) hb)]
        simp only [List.foldlM_cons, List.foldlM_nil, bind_pure]
        exact (step (n / b) last).trans (congrArg some (Nat.div_add_mod' n b))

/-- A number is read back from its digits. -/
theorem digits?_toDigits (hb : 1 < b) (atMost : b ≤ 16) (n : Nat) :
    digits? b (Nat.toDigits b n) = some n := by
  rw [digits?, if_neg (by simp), foldlM_toDigits hb atMost]

theorem toList_hex (n : Nat) : (hex n).toList = '0' :: 'x' :: Nat.toDigits 16 n := by
  have none : 1 - (Nat.toDigits 16 n).length = 0 := Nat.sub_eq_zero_of_le Nat.length_toDigits_pos
  simp [hex, hexDigits, none]

end Digits

end Text

namespace Expr

section Characters

/-- The characters of a slice. -/
def sliceChars (high low : Nat) : List Char :=
  '[' :: (Nat.toDigits 10 high ++ ':' :: (Nat.toDigits 10 low ++ [']']))

/-- The characters of the text of an expression. -/
def chars : Expr → List Char
  | .const v bits => '0' :: 'x' :: (Nat.toDigits 16 v.toNat ++ '#' :: Nat.toDigits 10 bits)
  | .var name _ => name.toList
  | .unary op x => op.symbol.toList ++ x.chars
  | .binary op l r =>
      '(' :: (l.chars ++ ' ' :: (op.symbol.toList ++ ' ' :: (r.chars ++ [')'])))
  | .ite c y n =>
      'i' :: 't' :: 'e' :: '(' :: (c.chars ++ ',' :: ' ' :: (y.chars ++ ',' :: ' ' :: (n.chars ++ [')'])))
  | .extract high low x => x.chars ++ sliceChars high low
  | .zext x bits => 'z' :: 'e' :: 'x' :: 't' :: (Nat.toDigits 10 bits ++ '(' :: (x.chars ++ [')']))
  | .sext x bits => 's' :: 'e' :: 'x' :: 't' :: (Nat.toDigits 10 bits ++ '(' :: (x.chars ++ [')']))
  | .concat h l => '(' :: (h.chars ++ ' ' :: '+' :: '+' :: ' ' :: (l.chars ++ [')']))

theorem toList_write (out : String) (e : Expr) : (write out e).toList = out.toList ++ e.chars := by
  induction e generalizing out with
  | const v bits => simp [write, chars, Text.toList_hex]
  | var name bits => simp [write, chars]
  | unary op x ih => simp [write, chars, ih]
  | binary op l r ihl ihr => simp [write, chars, ihl, ihr]
  | ite c y n ihc ihy ihn => simp [write, chars, ihc, ihy, ihn]
  | extract high low x ih => simp [write, chars, sliceChars, ih]
  | zext x bits ih | sext x bits ih => simp [write, chars, ih]
  | concat h l ihh ihl => simp [write, chars, ihh, ihl]

theorem toList_text (e : Expr) : e.text.toList = e.chars := by
  rw [text, toList_write, String.toList_empty, List.nil_append]

theorem text_eq_iff_chars {a b : Expr} : a.text = b.text ↔ a.chars = b.chars := by
  rw [← toList_text, ← toList_text, String.toList_inj]

end Characters

section Settled

/-- A slice, taken inside the unary operators that stand in front. -/
def sliceInside (high low : Nat) : Expr → Expr
  | .unary op x => .unary op (sliceInside high low x)
  | e => .extract high low e

/-- The expression with every slice taken before the unary operators that stand in front of it. -/
def settled : Expr → Expr
  | .const v bits => .const v bits
  | .var name bits => .var name bits
  | .unary op x => .unary op x.settled
  | .binary op l r => .binary op l.settled r.settled
  | .ite c y n => .ite c.settled y.settled n.settled
  | .extract high low x => sliceInside high low x.settled
  | .zext x bits => .zext x.settled bits
  | .sext x bits => .sext x.settled bits
  | .concat h l => .concat h.settled l.settled

def isUnaryNode : Expr → Bool
  | .unary .. => true
  | _ => false

/-- No slice is taken of a unary operation. -/
def Straight : Expr → Prop
  | .const .. | .var .. => True
  | .unary _ x | .zext x _ | .sext x _ => x.Straight
  | .binary _ l r | .concat l r => l.Straight ∧ r.Straight
  | .ite c y n => c.Straight ∧ y.Straight ∧ n.Straight
  | .extract _ _ x => x.isUnaryNode = false ∧ x.Straight

theorem chars_sliceInside (high low : Nat) (e : Expr) :
    (sliceInside high low e).chars = e.chars ++ sliceChars high low := by
  induction e with
  | unary op x ih => rw [sliceInside, chars, chars, ih, List.append_assoc]
  | _ => rfl

/-- The text does not tell an expression from its settled form. -/
theorem chars_settled (e : Expr) : e.settled.chars = e.chars := by
  induction e with
  | const | var => rfl
  | unary op x ih => rw [settled, chars, chars, ih]
  | binary op l r ihl ihr | concat l r ihl ihr => rw [settled, chars, chars, ihl, ihr]
  | ite c y n ihc ihy ihn => rw [settled, chars, chars, ihc, ihy, ihn]
  | extract high low x ih => rw [settled, chars_sliceInside, ih, chars]
  | zext x bits ih | sext x bits ih => rw [settled, chars, chars, ih]

theorem settled_of_straight {e : Expr} (straight : e.Straight) : e.settled = e := by
  induction e with
  | const | var => rfl
  | unary op x ih => rw [settled, ih straight]
  | binary op l r ihl ihr | concat l r ihl ihr => rw [settled, ihl straight.1, ihr straight.2]
  | ite c y n ihc ihy ihn => rw [settled, ihc straight.1, ihy straight.2.1, ihn straight.2.2]
  | extract high low x ih =>
      rw [settled, ih straight.2]
      cases x with
      | unary op y => cases straight.1
      | _ => rfl
  | zext x bits ih | sext x bits ih => rw [settled, ih straight]

end Settled

end Expr

end PathSearch
