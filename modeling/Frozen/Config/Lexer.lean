/-
# `Frozen.Config.Lexer` — tokens of configuration texts

`config_parser.l` has six rules; flex takes the longest match, and the earlier rule of
two that match the same text.  What a byte starts decides which rule that is, so the
lexer here looks at the first byte: a letter starts a name (or `NULL`, in any case), a
delimiter a string if the text has another one, and every byte that starts nothing else
is a token of its own.

The action of that last rule returns a `char`, which is signed: a byte above 127 is a
negative number, and the parser takes it for the end of the text.
-/
import Mathlib.Tactic

namespace Frozen.Config

/-! ## Bytes -/

def isLetter (b : UInt8) : Bool := (65 ≤ b && b ≤ 90) || (97 ≤ b && b ≤ 122)

/-- `[a-z0-9_]`, case-insensitive. -/
def isNameByte (b : UInt8) : Bool := isLetter b || (48 ≤ b && b ≤ 57) || b == 95

/-- `[ \n\r\t]` -/
def isBlank (b : UInt8) : Bool := b == 32 || b == 10 || b == 13 || b == 9

/-- One of `'`, `"`, `#` and `@`. -/
def isDelimiter (b : UInt8) : Bool := b == 39 || b == 34 || b == 35 || b == 64

def toLower (b : UInt8) : UInt8 := if 65 ≤ b && b ≤ 90 then b + 32 else b

/-- `strcasecmp` with a string in lower case. -/
def strcasecmp (string lower : List UInt8) : Bool := string.map toLower == lower

/-- `NULL`, case-insensitive. -/
def isNull (s : List UInt8) : Bool := s.map toLower == [110, 117, 108, 108]

/-! ## Tokens -/

inductive Token where
  | name (s : List UInt8)
  | string (s : List UInt8)
  | assign
  | tnull
  | comma
  | lbrace
  | rbrace
  | lparen
  | rparen
  /-- a byte that the grammar does not have -/
  | undefined
deriving DecidableEq

/-- The token of a byte that is one by itself. -/
def byteToken (b : UInt8) : Token :=
  if b = 44 then .comma
  else if b = 123 then .lbrace
  else if b = 125 then .rbrace
  else if b = 40 then .lparen
  else if b = 41 then .rparen
  else .undefined

/-- What starts at a byte, and what follows it. -/
inductive Scan where
  | token (t : Token) (rest : List UInt8)
  | blank (rest : List UInt8)
  | stop

def scan (b : UInt8) (bs : List UInt8) : Scan :=
  if isLetter b then
    let s := b :: bs.takeWhile isNameByte
    .token (if isNull s then .tnull else .name s) (bs.dropWhile isNameByte)
  else if b = 58 then .token .assign bs
  else if b = 61 then .token .assign (if bs.head? = some 62 then bs.tail else bs)
  else if isDelimiter b ∧ b ∈ bs then
    .token (.string (bs.takeWhile (· ≠ b))) (bs.dropWhile (· ≠ b)).tail
  else if isBlank b then .blank (bs.dropWhile isBlank)
  else if 128 ≤ b then .stop
  else .token (byteToken b) bs

def lexAux : Nat → List UInt8 → List Token
  | 0, _ => []
  | _ + 1, [] => []
  | n + 1, b :: bs =>
      match scan b bs with
      | .token t rest => t :: lexAux n rest
      | .blank rest => lexAux n rest
      | .stop => []

/-- The tokens of a text. -/
def lex (text : List UInt8) : List Token := lexAux text.length text

/-! ## One token at a time -/

theorem scan_length {b : UInt8} {bs : List UInt8} :
    (∀ t rest, scan b bs = .token t rest → rest.length ≤ bs.length) ∧
    ∀ rest, scan b bs = .blank rest → rest.length ≤ bs.length := by
  have hdrop : ∀ p : UInt8 → Bool, (bs.dropWhile p).length ≤ bs.length :=
    fun p => (List.dropWhile_sublist p).length_le
  unfold scan
  split_ifs <;> refine ⟨fun t rest h => ?_, fun rest h => ?_⟩ <;> cases h
  · exact hdrop _
  · exact le_rfl
  · simp
  · exact le_rfl
  · rw [List.length_tail]
    exact le_trans (Nat.sub_le _ _) (hdrop _)
  · exact hdrop _
  · exact le_rfl

/-- More fuel than bytes changes nothing. -/
theorem lexAux_eq {n m : Nat} {bs : List UInt8} (hn : bs.length ≤ n)
    (hm : bs.length ≤ m) : lexAux n bs = lexAux m bs := by
  induction n generalizing m bs with
  | zero =>
      obtain rfl := List.length_eq_zero_iff.mp (Nat.le_zero.mp hn)
      cases m <;> rfl
  | succ n ih =>
      cases bs with
      | nil => cases m <;> rfl
      | cons b bs =>
          cases m with
          | zero => cases hm
          | succ m =>
              have hlen := @scan_length b bs
              simp only [List.length_cons, Nat.add_le_add_iff_right] at hn hm
              simp only [lexAux]
              cases hscan : scan b bs with
              | token t rest =>
                  have hrest := hlen.1 t rest hscan
                  exact congrArg (t :: ·) (ih (by omega) (by omega))
              | blank rest =>
                  have hrest := hlen.2 rest hscan
                  exact ih (by omega) (by omega)
              | stop => rfl

theorem lex_token {b : UInt8} {bs rest : List UInt8} {t : Token}
    (h : scan b bs = .token t rest) : lex (b :: bs) = t :: lex rest := by
  have hlen := scan_length.1 t rest h
  simp only [lex, List.length_cons, lexAux, h]
  rw [lexAux_eq hlen le_rfl]

theorem lex_blank {b : UInt8} {bs rest : List UInt8} (h : scan b bs = .blank rest) :
    lex (b :: bs) = lex rest := by
  have hlen := scan_length.2 rest h
  simp only [lex, List.length_cons, lexAux, h]
  rw [lexAux_eq hlen le_rfl]

/-! ## Texts that are tokens and blanks -/

/-- The tokens of a text, all of it. -/
inductive Lexes : List UInt8 → List Token → Prop
  | done : Lexes [] []
  | token {b : UInt8} {bs rest : List UInt8} {t : Token} {ts : List Token} :
      scan b bs = .token t rest → Lexes rest ts → Lexes (b :: bs) (t :: ts)
  | blank {b : UInt8} {bs rest : List UInt8} {ts : List Token} :
      scan b bs = .blank rest → Lexes rest ts → Lexes (b :: bs) ts

theorem Lexes.lex_eq {text : List UInt8} {ts : List Token} (h : Lexes text ts) :
    lex text = ts := by
  induction h with
  | done => rfl
  | token hscan _ ih => rw [lex_token hscan, ih]
  | blank hscan _ ih => rw [lex_blank hscan, ih]

theorem scan_of_isBlank {b : UInt8} (h : isBlank b) (bs : List UInt8) :
    scan b bs = .blank (bs.dropWhile isBlank) := by
  simp only [isBlank, Bool.or_eq_true, beq_iff_eq] at h
  rcases h with ((rfl | rfl) | rfl) | rfl <;> rfl

/-- Blanks at the front do not matter, be there more or not. -/
theorem Lexes.dropWhile {text : List UInt8} {ts : List Token} (h : Lexes text ts) :
    Lexes (text.dropWhile isBlank) ts := by
  cases text with
  | nil => exact h
  | cons b bs =>
      by_cases hb : isBlank b
      · rw [List.dropWhile_cons_of_pos hb]
        cases h with
        | token hscan _ =>
            rw [scan_of_isBlank hb] at hscan
            cases hscan
        | blank hscan hrest =>
            rw [scan_of_isBlank hb] at hscan
            cases hscan
            exact hrest
      · rwa [List.dropWhile_cons_of_neg hb]

theorem Lexes.blanks {text : List UInt8} {ts : List Token} (h : Lexes text ts)
    {bs : List UInt8} (hbs : ∀ b ∈ bs, isBlank b) : Lexes (bs ++ text) ts := by
  cases bs with
  | nil => exact h
  | cons b bs =>
      rw [List.cons_append]
      refine .blank (scan_of_isBlank (hbs b List.mem_cons_self) _) ?_
      rw [List.dropWhile_append_of_pos fun x hx => hbs x (List.mem_cons_of_mem b hx)]
      exact h.dropWhile

end Frozen.Config
