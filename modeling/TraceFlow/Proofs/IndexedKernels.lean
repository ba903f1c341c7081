import TraceFlow.Proofs.KernelCodes

set_option autoImplicit false

namespace TraceFlow.Kernel

open List
open Token (scanAll)

variable {name other : String}

theorem scanAll_sum (word : isWord name = true) (word' : isWord other = true) {behind : List Char}
    (stops : ∀ c, behind.head? = some c → Token.continuesName c = false) :
    Token.scanAll ((name ++ " + " ++ other).toList ++ behind) =
    (do return [.name name, .mark .plus, .name other] ++ (← Token.scanAll behind)) := by
  have plus (rest : List Char) :
    Token.scanAll ('+' :: ' ' :: rest) = (do return .mark .plus ::
      (← Token.scanAll (' ' :: rest))) := by
    rw [Token.scanAll_cons]
    rfl
  have sign : " + ".toList = [' ', '+', ' '] := by decide
  rw [String.toList_append, String.toList_append, append_assoc, append_assoc, sign, cons_append,
    cons_append, cons_append,
    nil_append]
  rw [scanAll_word_append word (by rintro c ⟨⟩; rfl), Token.scanAll_blank, plus,
    Token.scanAll_blank, scanAll_word_append word' stops]
  cases Token.scanAll behind <;> rfl

theorem Token.scanAll_comma (rest : List Char) :
    scanAll (", ".toList ++ rest) = (do return .mark .comma :: (← scanAll rest)) := by
  have comma : scanAll (',' :: ' ' :: rest) = (do return .mark .comma ::
    (← scanAll (' ' :: rest))) := by
    rw [scanAll_cons]
    rfl
  have sign : ", ".toList = [',', ' '] := by decide
  rw [sign, cons_append, cons_append, nil_append, comma, scanAll_blank]

theorem Token.scanAll_bracket (rest : List Char) :
    scanAll ('[' :: rest) = (do return .mark .openBracket :: (← scanAll rest)) := by
  have read : step '[' rest = .ok (.some (.mark .openBracket), rest) := by
    cases rest <;> rfl
  rw [scanAll_cons, read]
  rfl

-- A subscript: its text is scanned up to what ends it, as the tokens of an expression.
structure Subscript (text : String) (tokens : List Token) (x : Expr) : Prop where
  printable : x.isPrintable = true
  printed : x.tokens = tokens
  scans : ∀ behind : List Char, (∀ c, behind.head? = some c → Token.continuesName c = false) →
    scanAll (text.toList ++ behind) = (do return tokens ++ (← scanAll behind))

theorem subscript_word (word : isWord name = true) : Subscript name [.name name] (.name name) where
  printable := by rw [Expr.isPrintable, isVariable_of_isWord word]
  printed := by rw [Expr.tokens]
  scans _ stops := scanAll_word_append word stops

theorem subscript_sum (word : isWord name = true) (word' : isWord other = true) :
    Subscript (name ++ " + " ++ other) [.name name, .mark .plus, .name other]
      (.arith .add (.name name) (.name other)) where
  printable := by simp [Expr.isPrintable, isVariable_of_isWord word, isVariable_of_isWord word']
  printed := by
    rw [Expr.tokens, Expr.tokens, Expr.tokens]
    rfl
  scans behind stops := scanAll_sum word word' stops

section

variable {parts : List (String × List Token × Expr)}

theorem scanAll_subscripts (some : parts ≠ [])
    (each : ∀ part ∈ parts, Subscript part.1 part.2.1 part.2.2) :
    scanAll ((", ".intercalate (parts.map Prod.fst)).toList ++ [']']) =
      .ok (Expr.listed (parts.map fun part => part.2.2) ++ [.mark .closeBracket]) := by
  induction parts with
  | nil => exact absurd rfl some
  | cons part rest ih =>
    obtain ⟨here, others⟩ := forall_mem_cons.mp each
    cases rest with
    | nil =>
      rw [map_singleton, String.intercalate_singleton, here.scans [']'] (by rintro c ⟨⟩; rfl)]
      rw [map_singleton, Expr.listed, here.printed]
      rfl
    | cons next rest =>
      have scanned := ih (by simp) others
      rw [map_cons, map_cons] at scanned ⊢
      rw [map_cons, String.intercalate_cons_cons, String.toList_append, String.toList_append,
        append_assoc, append_assoc,
        here.scans _ (by rintro c ⟨⟩; rfl), Token.scanAll_comma, scanned, map_cons,
        Expr.listed_cons, here.printed]
      simp [pure, Except.pure, parse_ok]

theorem allPrintable_subscripts (each : ∀ part ∈ parts, Subscript part.1 part.2.1 part.2.2) :
    Expr.allPrintable (parts.map fun part => part.2.2) = true := by
  induction parts with
  | nil => rfl
  | cons part rest ih =>
    obtain ⟨here, others⟩ := forall_mem_cons.mp each
    rw [map_cons, Expr.allPrintable, here.printable, ih others]
    rfl

theorem parse_indexed {array : String} (word : isWord array = true) (some : parts ≠ [])
    (each : ∀ part ∈ parts, Subscript part.1 part.2.1 part.2.2) :
    Assignment.parse ("__out = " ++ (array ++ Text.bracketed (parts.map Prod.fst))) =
      .ok ⟨"__out", .subscript array (parts.map fun part => part.2.2)⟩ := by
  have printable : (Expr.subscript array (parts.map fun part => part.2.2)).isPrintable = true := by
    rw [Expr.isPrintable, isVariable_of_isWord word, allPrintable_subscripts each]
    rfl
  have scanned : Token.scan ("__out = " ++ (array ++ Text.bracketed (parts.map Prod.fst))) =
      .ok (.name "__out" :: .mark .becomes ::
        (Expr.subscript array (parts.map fun part => part.2.2)).tokens) := by
    have cut : (array ++ Text.bracketed (parts.map Prod.fst)).toList = array.toList ++ '[' ::
      ((", ".intercalate (parts.map Prod.fst)).toList ++ [']']) := by
      rw [Text.bracketed]
      simp
    rw [Token.scan_eq, String.toList_append, Token.scanAll_assigned, cut,
      scanAll_word_append word (by rintro c ⟨⟩; rfl), Token.scanAll_bracket,
      scanAll_subscripts some each, Expr.tokens]
    rfl
  rw [Assignment.parse, Assignment.parse?, scanned, parse_ok, Assignment.ofTokens_tokens printable]

end

end TraceFlow.Kernel
