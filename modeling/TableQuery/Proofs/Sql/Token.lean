import Mathlib
import TableQuery.Sql.Fragment

/-!
# Tokens of SQL

Before a condition is read, its text is cut into tokens: keywords and other words, operator signs,
quoted text, single marks, placeholders, and parenthesised groups with their own tokens inside.

The text is read byte by byte. A `Scanner` holds what has been read of the token at hand, the tokens
before it in the innermost open group, and those before each parenthesis that is still open. So what
a text adds is the same wherever it stands, and the laws of this file are about pieces: `Lexes text ts`
says that a text, begun between two tokens, adds the tokens `ts` and leaves every group as it was.

## What is proved

`lex_eq_some_iff`: a text that can be read on its own, with every quote and parenthesis closed, adds its
tokens wherever it stands. `Lexes.append`, `Opens.append` and `Lexes.group` put pieces together, and
`lexes_quoteName` says that a quoted name is one token, whatever bytes the name has.

A quote inside quoted text is written twice. Comments are not part of this SQL.
-/

namespace TableQuery

/-- The words that shape a condition or end one. -/
inductive Keyword where
  | and | or | not
  | between | is | null
  | isIn | like | ilike | escape
  | whereClause | orderClause
deriving Repr, DecidableEq

namespace Keyword

/-- Every keyword. -/
def all : List Keyword :=
  [.and, .or, .not, .between, .is, .null, .isIn, .like, .ilike, .escape, .whereClause, .orderClause]

/-- A keyword in capitals. -/
def spelling : Keyword → Bytes
  | and => "AND"
  | or => "OR"
  | not => "NOT"
  | between => "BETWEEN"
  | is => "IS"
  | null => "NULL"
  | isIn => "IN"
  | like => "LIKE"
  | ilike => "ILIKE"
  | escape => "ESCAPE"
  | whereClause => "WHERE"
  | orderClause => "ORDER"

/-- The keyword that a word is, in any case. -/
def ofWord? (word : Bytes) : Option Keyword :=
  all.find? fun k => k.spelling == Bytes.toUpper word

end Keyword

/-- A token of SQL. -/
inductive Token where
  | keyword (keyword : Keyword)
  | word (text : Bytes)
  /-- A run of operator characters. -/
  | sign (text : Bytes)
  | quoted (quote : UInt8) (text : Bytes)
  | mark (byte : UInt8)
  /-- A placeholder, with its value once that is bound. -/
  | slot (value : Option Json)
  /-- What stands between a parenthesis and the one that closes it. -/
  | group (content : List Token)
deriving Repr, Inhabited

namespace Token

/-- The token of a word. -/
def ofWord (word : Bytes) : Token :=
  match Keyword.ofWord? word with
  | some k => keyword k
  | none => .word word

/-- The keyword that a token is. -/
def keyword? : Token → Option Keyword
  | keyword k => some k
  | _ => none

end Token

/-! ## Reading byte by byte -/

/-- What is being read. -/
inductive ScanMode where
  /-- Nothing: between two tokens. -/
  | gap
  | word (text : Bytes)
  | sign (text : Bytes)
  | quoted (quote : UInt8) (text : Bytes)
  /-- After a quote that closes the text, unless another one follows. -/
  | closed (quote : UInt8) (text : Bytes)
deriving Repr

/-- A text read so far. -/
structure Scanner where
  mode : ScanMode := .gap
  /-- The tokens of the innermost open group. -/
  tokens : List Token := []
  /-- The tokens before each open parenthesis, innermost first. -/
  outer : List (List Token) := []
deriving Repr

namespace Scanner

/-- Whether a byte belongs to a word. -/
def isWordByte (b : UInt8) : Bool := Ascii.isNameRest b || b == Ascii.dollar || 0x80 ≤ b

/-- Whether a byte belongs to an operator sign. -/
def isSignByte (b : UInt8) : Bool :=
  [Ascii.bang, 0x23, Ascii.percent, 0x26, Ascii.star, Ascii.plus, Ascii.minus, Ascii.slash, 0x3c,
    Ascii.equals, 0x3e, 0x40, 0x5e, 0x7c, 0x7e].contains b

/-- Whether a byte ends any token that is not quoted. -/
def isBreak (b : UInt8) : Bool := !isWordByte b && !isSignByte b && !Fragment.isQuote b

/-- Whether a text begins with a byte that ends any token before it. -/
def breaks (text : Bytes) : Bool := text.head?.any isBreak

/-- Adds tokens to the innermost group. -/
def push (s : Scanner) (ts : List Token) : Scanner :=
  { s with mode := .gap, tokens := s.tokens ++ ts }

/-- Ends the token at hand; quoted text that is still open stays so. -/
def flush (s : Scanner) : Scanner :=
  match s.mode with
  | .gap | .quoted .. => s
  | .word w => s.push [Token.ofWord w]
  | .sign w => s.push [.sign w]
  | .closed q w => s.push [.quoted q w]

/-- Reads a byte between two tokens; a parenthesis that closes nothing is refused. -/
def start (s : Scanner) (b : UInt8) : Option Scanner :=
  if Ascii.isSpace b then some s
  else if Fragment.isQuote b then some { s with mode := .quoted b [] }
  else if isWordByte b then some { s with mode := .word [b] }
  else if isSignByte b then some { s with mode := .sign [b] }
  else if b == Ascii.leftParen then some { tokens := [], outer := s.tokens :: s.outer }
  else if b == Ascii.rightParen then
    match s.outer with
    | [] => none
    | before :: outer => some { tokens := before ++ [.group s.tokens], outer }
  else if b == Ascii.question then some (s.push [.slot none])
  else some (s.push [.mark b])

/-- Reads a byte. -/
def step (s : Scanner) (b : UInt8) : Option Scanner :=
  match s.mode with
  | .gap => s.start b
  | .word w => if isWordByte b then some { s with mode := .word (w ++ [b]) } else s.flush.start b
  | .sign w => if isSignByte b then some { s with mode := .sign (w ++ [b]) } else s.flush.start b
  | .quoted q w => some { s with mode := if b == q then .closed q w else .quoted q (w ++ [b]) }
  | .closed q w =>
    if Fragment.isQuote b && b == q then some { s with mode := .quoted q (w ++ [b]) }
    else s.flush.start b

/-- Reads a text. -/
def scan (s : Scanner) (text : Bytes) : Option Scanner := text.foldlM step s

/-- The tokens of a text that has come to its end; none if a quote or a group is open. -/
def finish? (s : Scanner) : Option (List Token) :=
  match s.flush with
  | { mode := .gap, tokens, outer := [] } => some tokens
  | _ => none

theorem scan_cons (s : Scanner) (b : UInt8) (text : Bytes) :
    s.scan (b :: text) = (s.step b).bind fun t => t.scan text := rfl

theorem scan_append (s : Scanner) (text more : Bytes) :
    s.scan (text ++ more) = (s.scan text).bind fun t => t.scan more := by
  unfold scan
  rw [List.foldlM_append]
  rfl

/-- A byte that ends a token does what it does between two tokens. -/
theorem step_of_break {s : Scanner} {b : UInt8} (hb : isBreak b = true)
    (gap : s.flush.mode = .gap) : s.step b = s.flush.start b := by
  obtain ⟨mode, tokens, outer⟩ := s
  simp only [isBreak, Bool.and_eq_true, Bool.not_eq_eq_eq_not, Bool.not_true] at hb
  obtain ⟨⟨hw, hs⟩, hq⟩ := hb
  cases mode with
  | gap => rfl
  | word w => simp only [step, hw, Bool.false_eq_true, if_false]
  | sign w => simp only [step, hs, Bool.false_eq_true, if_false]
  | quoted q w => cases gap
  | closed q w => simp only [step, hq, Bool.false_and, Bool.false_eq_true, if_false]

end Scanner

/-- The tokens of a text; none if it has a quote or a parenthesis without its partner. -/
def lex (text : Bytes) : Option (List Token) := (Scanner.scan {} text).bind Scanner.finish?

/-! ## Pieces of text -/

/-- Begun between two tokens, the text adds these tokens and leaves every group as it was. -/
def Lexes (text : Bytes) (ts : List Token) : Prop :=
  ∀ tokens outer, (Scanner.scan { tokens, outer } text).map Scanner.flush
    = some { tokens := tokens ++ ts, outer }

/-- The text adds these tokens and ends between two tokens. -/
def Opens (text : Bytes) (ts : List Token) : Prop :=
  ∀ tokens outer, Scanner.scan { tokens, outer } text = some { tokens := tokens ++ ts, outer }

theorem Lexes.nil : Lexes [] [] := by
  intro tokens outer
  simp only [List.append_nil]
  rfl

theorem Lexes.scan {text : Bytes} {ts : List Token} (h : Lexes text ts) (tokens : List Token)
    (outer : List (List Token)) :
    ∃ s, Scanner.scan { tokens, outer } text = some s ∧ s.flush = { tokens := tokens ++ ts, outer } :=
  Option.map_eq_some_iff.mp (h tokens outer)

/-- After a piece, a text that ends the token at hand is read as between two tokens. -/
private theorem Lexes.scan_append {text rest : Bytes} {ts : List Token} (h : Lexes text ts)
    (hb : Scanner.breaks rest = true) (tokens : List Token) (outer : List (List Token)) :
    Scanner.scan { tokens, outer } (text ++ rest) = Scanner.scan { tokens := tokens ++ ts, outer } rest := by
  cases rest with
  | nil => cases hb
  | cons b rest =>
    obtain ⟨s, hs, hf⟩ := h.scan tokens outer
    have gap : s.flush.mode = .gap := by rw [hf]
    have step : s.step b = Scanner.step { tokens := tokens ++ ts, outer } b := by
      rw [Scanner.step_of_break hb gap, hf]
      rfl
    rw [Scanner.scan_append, hs, Option.bind_some, Scanner.scan_cons, step, ← Scanner.scan_cons]

/-- Two pieces add the tokens of both if the second begins with a byte that ends a token. -/
theorem Lexes.append {text rest : Bytes} {ts us : List Token} (h : Lexes text ts)
    (hb : Scanner.breaks rest = true) (hr : Lexes rest us) : Lexes (text ++ rest) (ts ++ us) := by
  intro tokens outer
  rw [h.scan_append hb, hr (tokens ++ ts) outer, List.append_assoc]

/-- A piece that ends between two tokens may be followed by any other. -/
theorem Opens.append {text rest : Bytes} {ts us : List Token} (h : Opens text ts)
    (hr : Lexes rest us) : Lexes (text ++ rest) (ts ++ us) := by
  intro tokens outer
  rw [Scanner.scan_append, h, Option.bind_some, hr (tokens ++ ts) outer, List.append_assoc]

theorem Opens.lexes {text : Bytes} {ts : List Token} (h : Opens text ts) : Lexes text ts := by
  intro tokens outer
  rw [h]
  rfl

/-- A piece, and one that begins with a byte that ends a token and then ends between two tokens. -/
theorem Lexes.opens {text rest : Bytes} {ts us : List Token} (h : Lexes text ts)
    (hb : Scanner.breaks rest = true) (hr : Opens rest us) : Opens (text ++ rest) (ts ++ us) := by
  intro tokens outer
  rw [h.scan_append hb, hr (tokens ++ ts) outer, List.append_assoc]

/-- A text in parentheses is one group. -/
theorem Lexes.group {text : Bytes} {ts : List Token} (h : Lexes text ts) :
    Opens (Ascii.leftParen :: (text ++ [Ascii.rightParen])) [.group ts] := by
  intro tokens outer
  obtain ⟨s, hs, hf⟩ := h.scan [] (tokens :: outer)
  have gap : s.flush.mode = .gap := by rw [hf]
  have opened : Scanner.step { tokens, outer } Ascii.leftParen
      = some { tokens := [], outer := tokens :: outer } := rfl
  have closed : s.step Ascii.rightParen = some { tokens := tokens ++ [.group ts], outer } := by
    rw [Scanner.step_of_break (by decide) gap, hf]
    rfl
  rw [Scanner.scan_cons, opened, Option.bind_some, Scanner.scan_append, hs, Option.bind_some,
    Scanner.scan_cons, closed]
  rfl

/-! ## Texts that stand on their own -/

namespace Scanner

/-- Puts a reading under tokens and open groups that were there before it: the tokens come first in its
outermost group. -/
def raise (before : List Token) (around : List (List Token)) :
    List Token → List (List Token) → List Token × List (List Token)
  | tokens, [] => (before ++ tokens, around)
  | tokens, o :: outer => (tokens, (raise before around o outer).1 :: (raise before around o outer).2)

theorem raise_append (before ts tokens : List Token) (around outer : List (List Token)) :
    raise before around (tokens ++ ts) outer
      = ((raise before around tokens outer).1 ++ ts, (raise before around tokens outer).2) := by
  cases outer with
  | nil => simp only [raise, List.append_assoc]
  | cons o outer => rfl

/-- A reading with tokens and open groups before it. -/
def above (before : List Token) (around : List (List Token)) (s : Scanner) : Scanner :=
  { mode := s.mode
    tokens := (raise before around s.tokens s.outer).1
    outer := (raise before around s.tokens s.outer).2 }

variable {before : List Token} {around : List (List Token)} {s t : Scanner} {b : UInt8} {text : Bytes}

theorem push_above (s : Scanner) (ts : List Token) :
    (s.above before around).push ts = (s.push ts).above before around := by
  simp only [push, above, raise_append]

theorem flush_above (s : Scanner) :
    (s.above before around).flush = s.flush.above before around := by
  obtain ⟨mode, tokens, outer⟩ := s
  cases mode with
  | gap | quoted => rfl
  | word w => exact push_above _ _
  | sign w => exact push_above _ _
  | closed q w => exact push_above _ _

/-- What was there before a reading does not change what a byte does. -/
theorem start_above (h : s.start b = some t) :
    (s.above before around).start b = some (t.above before around) := by
  unfold start at h ⊢
  split_ifs at h ⊢ with space quote word sign opening closing question
  · cases h; rfl
  · cases h; rfl
  · cases h; rfl
  · cases h; rfl
  · cases h; rfl
  · -- A closing parenthesis; the reading has an open one of its own.
    obtain ⟨mode, tokens, outer⟩ := s
    cases outer with
    | nil => cases h
    | cons o outer =>
      cases h
      simp only [above, raise, raise_append]
  · cases h
    rw [push_above]
  · cases h
    rw [push_above]

theorem step_above (h : s.step b = some t) :
    (s.above before around).step b = some (t.above before around) := by
  have flushed (hf : s.flush.start b = some t) :
      (s.above before around).flush.start b = some (t.above before around) := by
    rw [flush_above]
    exact start_above hf
  obtain ⟨mode, tokens, outer⟩ := s
  cases mode with
  | gap => exact start_above h
  | word w | sign w | closed q w =>
    simp only [step] at h
    simp only [step, above]
    split_ifs at h ⊢
    · cases h; rfl
    · exact flushed h
  | quoted q w =>
    cases h
    rfl

theorem scan_above (before : List Token) (around : List (List Token)) (h : s.scan text = some t) :
    (s.above before around).scan text = some (t.above before around) := by
  induction text generalizing s with
  | nil =>
    cases h
    rfl
  | cons b text ih =>
    rw [scan_cons] at h ⊢
    obtain ⟨u, hu, ht⟩ := Option.bind_eq_some_iff.mp h
    rw [step_above hu, Option.bind_some]
    exact ih ht

end Scanner

/-- A text that can be read on its own adds the same tokens wherever it stands, and only such a text
does. -/
theorem lex_eq_some_iff {text : Bytes} {ts : List Token} : lex text = some ts ↔ Lexes text ts := by
  constructor
  · intro h tokens outer
    obtain ⟨s, hs, hf⟩ := Option.bind_eq_some_iff.mp h
    have closed : s.flush = { tokens := ts } := by
      unfold Scanner.finish? at hf
      split at hf
      · next found => cases hf; exact found
      · cases hf
    have raised := Scanner.scan_above tokens outer hs
    rw [show Scanner.above tokens outer {} = { tokens, outer } by
      simp only [Scanner.above, Scanner.raise, List.append_nil]] at raised
    rw [raised, Option.map_some, Scanner.flush_above, closed]
    rfl
  · intro h
    obtain ⟨s, hs, hf⟩ := h.scan [] []
    unfold lex
    rw [hs, Option.bind_some, Scanner.finish?, hf]
    rfl

/-- A text that ends between two tokens when it is read on its own ends so wherever it stands. -/
theorem opens_of_scan {text : Bytes} {ts : List Token}
    (h : Scanner.scan {} text = some { tokens := ts }) : Opens text ts := by
  intro tokens outer
  have raised := Scanner.scan_above tokens outer h
  rw [show Scanner.above tokens outer {} = { tokens, outer } by
    simp only [Scanner.above, Scanner.raise, List.append_nil]] at raised
  rw [raised]
  rfl

/-! ## Quoted text -/

/-- Read inside quoted text, its bytes with the quotes doubled are these bytes. -/
theorem scan_doubled {q : UInt8} (hq : Fragment.isQuote q = true) (name text : Bytes)
    (tokens : List Token) (outer : List (List Token)) :
    Scanner.scan { mode := .quoted q text, tokens, outer } (Dialect.doubled q name)
      = some { mode := .quoted q (text ++ name), tokens, outer } := by
  induction name generalizing text with
  | nil =>
    simp only [Dialect.doubled, List.flatMap_nil, List.append_nil]
    rfl
  | cons b name ih =>
    have cons : Dialect.doubled q (b :: name)
        = (if b == q then [q, b] else [b]) ++ Dialect.doubled q name := rfl
    rw [cons, Scanner.scan_append]
    by_cases hb : b = q
    · subst hb
      have twice : Scanner.scan { mode := .quoted b text, tokens, outer } [b, b]
          = some { mode := .quoted b (text ++ [b]), tokens, outer } := by
        simp [Scanner.scan, Scanner.step, hq]
      simp only [beq_self_eq_true, if_true]
      rw [twice, Option.bind_some, ih, List.append_assoc]
      rfl
    · have once : Scanner.scan { mode := .quoted q text, tokens, outer } [b]
          = some { mode := .quoted q (text ++ [b]), tokens, outer } := by
        simp [Scanner.scan, Scanner.step, hb]
      simp only [beq_eq_false_iff_ne.mpr hb, Bool.false_eq_true, if_false]
      rw [once, Option.bind_some, ih, List.append_assoc]
      rfl

/-- A text between quotes, with the quotes inside it doubled, is one token that has the text. -/
theorem lexes_between {q : UInt8} (hq : Fragment.isQuote q = true) (name : Bytes) :
    Lexes (Dialect.between q name) [.quoted q name] := by
  intro tokens outer
  have space : Ascii.isSpace q = false := by
    simp only [Fragment.isQuote, Bool.or_eq_true, beq_iff_eq] at hq
    rcases hq with (rfl | rfl) | rfl <;> rfl
  have opened : Scanner.step { tokens, outer } q
      = some { mode := .quoted q [], tokens, outer } := by
    simp [Scanner.step, Scanner.start, space, hq]
  have closed : Scanner.scan { mode := .quoted q name, tokens, outer } [q]
      = some { mode := .closed q name, tokens, outer } := by
    simp [Scanner.scan, Scanner.step]
  unfold Dialect.between
  rw [Scanner.scan_cons, opened, Option.bind_some, Scanner.scan_append, scan_doubled hq,
    Option.bind_some, List.nil_append, closed]
  rfl

theorem lexes_quoteName (d : Dialect) (name : Bytes) :
    Lexes (d.quoteName name) [.quoted d.nameQuote name] :=
  lexes_between (by cases d <;> rfl) name

end TableQuery
