import Octet.Proofs.Token.Writing
import Octet.Proofs.Toolchain.Stages
import Octet.Proofs.Tree.Reading

namespace Octet

namespace Text

/-- Between quotation marks a character stands as it is or as one of the escapes that the lexer
knows. -/
def QuotesPlainly (c : Char) : Prop :=
  encode '"' c ∈ [[c], ['\\', '"'], ['\\', '\\'], ['\\', 'n'], ['\\', 't']]

instance (c : Char) : Decidable (QuotesPlainly c) :=
  inferInstanceAs (Decidable (_ ∈ _))

theorem encode_of_quotesPlainly {c : Char} (h : QuotesPlainly c) :
    encode '"' c = escapeChar c := by
  by_cases hs : c = '"' ∨ c = '\\' ∨ c = '\n' ∨ c = '\t'
  · obtain rfl | rfl | rfl | rfl := hs <;> rfl
  · obtain ⟨hq, hb, hl, ht⟩ : c ≠ '"' ∧ c ≠ '\\' ∧ c ≠ '\n' ∧ c ≠ '\t' := by simpa using hs
    have he : escapeChar c = [c] := by simp [escapeChar, hq, hb, hl, ht]
    have hc : encode '"' c = [c] := by
      rw [QuotesPlainly, encode] at h
      rw [encode]
      split_ifs at h ⊢ <;> simp_all
    rw [hc, he]

theorem toList_quote {s : String} (h : ∀ c ∈ s.toList, QuotesPlainly c) :
    (quote s).toList = '"' :: (escape s.toList ++ ['"']) := by
  have he : s.toList.flatMap (encode '"') = escape s.toList :=
    List.flatMap_congr fun c hc => encode_of_quotesPlainly (h c hc)
  rw [quote, String.toList_ofList, he, List.cons_append]

end Text

namespace Expr

def texts : Expr → List String
  | text s => [s]
  | binary left _ right => left.texts ++ right.texts
  | _ => []

/-- The texts of an expression can be read back from what it displays. -/
def Legible (e : Expr) : Prop := ∀ s ∈ e.texts, ∀ c ∈ s.toList, Text.QuotesPlainly c

instance (e : Expr) : Decidable e.Legible :=
  have (s : String) : Decidable (∀ c ∈ s.toList, Text.QuotesPlainly c) := List.decidableBAll _ _
  List.decidableBAll _ _

theorem tokens_ne_nil (e : Expr) : e.tokens ≠ [] := by
  cases e <;> simp [tokens]

end Expr

namespace Lexer

theorem spells_operator (op : BinaryOp) : op.token.Spells op.symbol.toList := by
  cases op with
  | arith op =>
    cases op with
    | mod => exact .keyword (by decide)
    | _ => exact .sign rfl
  | compare op => cases op <;> exact .sign rfl

/-- What an expression displays is a way to write its tokens. -/
theorem spaced_display {e : Expr} (he : e.Legible) {tokens : List Token} {gap s : List Char}
    (hg : IsSpace gap) (hn : tokens ≠ [] → gap ≠ []) (hs : Spaced tokens s) :
    Spaced (e.tokens ++ tokens) (e.display.toList ++ (gap ++ s)) := by
  have hb : IsSpace [' '] := by simp [IsSpace]
  induction e generalizing tokens gap s with
  | number n =>
    rw [Expr.display, Nat.toList_repr]
    exact .cons (.number n 0) hg hn hs
  | text text =>
    rw [Expr.display, Text.toList_quote (he text (by simp [Expr.texts]))]
    exact .cons (.quoted text) hg hn hs
  | slot i =>
    have hi : (UInt32.ofNat i.val).toNat = i.val :=
      UInt32.toNat_ofNat_of_lt' (Nat.lt_trans i.isLt (by decide))
    have hw := Spaced.cons (.number (UInt32.ofNat i.val) 0) hg hn hs
    rw [hi] at hw
    have hk : Token.Spells (.keyword .ding) "DING".toList := .keyword (by decide)
    simpa [Expr.display, Expr.tokens, Slot.token] using Spaced.cons hk hb (fun _ => by simp) hw
  | binary left op right ihl ihr =>
    have hl : left.Legible := fun s hm => he s (by simp [Expr.texts, hm])
    have hr : right.Legible := fun s hm => he s (by simp [Expr.texts, hm])
    have ho := Spaced.cons (spells_operator op) hb (fun _ => by simp) (ihr hr hg hn hs)
    simpa [Expr.display, Expr.tokens] using ihl hl hb (fun _ => by simp) ho

theorem tokenize_of_spaced {tokens : List Token} {source : String}
    (h : Spaced tokens source.toList) (hn : tokens ≠ []) :
    tokenize source = .ok (tokens.map (Located.mk 1) ++ [⟨1, .newline⟩, ⟨1, .eof⟩]) := by
  have hi := items_of_written ⟨[], source.toList, nofun, h, rfl⟩
  rw [if_neg hn, List.map_append] at hi
  exact tokenize_eq_ok_iff.2 hi

theorem spaced_display_self {e : Expr} (he : e.Legible) : Spaced e.tokens e.display.toList := by
  have hg : IsSpace [] := nofun
  have h := spaced_display he hg (fun h => absurd rfl h) (.nil (.inl rfl))
  rwa [List.append_nil, List.append_nil, List.append_nil] at h

theorem tokenize_display {e : Expr} (he : e.Legible) :
    tokenize e.display = .ok (e.tokens.map (Located.mk 1) ++ [⟨1, .newline⟩, ⟨1, .eof⟩]) :=
  tokenize_of_spaced (spaced_display_self he) e.tokens_ne_nil

theorem tokenize_output_display {e : Expr} (he : e.Legible) :
    tokenize ("ERWACHE VORSTELLUNG " ++ e.display) =
      .ok (⟨1, .keyword .erwache⟩ :: ⟨1, .keyword .vorstellung⟩ ::
        (e.tokens.map (Located.mk 1) ++ [⟨1, .newline⟩, ⟨1, .eof⟩])) := by
  have hb : IsSpace [' '] := by simp [IsSpace]
  have ho : Token.Spells (.keyword .erwache) "ERWACHE".toList := .keyword (by decide)
  have hv : Token.Spells (.keyword .vorstellung) "VORSTELLUNG".toList := .keyword (by decide)
  have hs := Spaced.cons hv hb (fun _ => by simp) (spaced_display_self he)
  have h := Spaced.cons ho hb (fun _ => by simp) hs
  have hs : "ERWACHE".toList ++ ([' '] ++ ("VORSTELLUNG".toList ++ ([' '] ++ e.display.toList))) =
      ("ERWACHE VORSTELLUNG " ++ e.display).toList := by simp
  rw [hs] at h
  simpa using tokenize_of_spaced h (by simp)

end Lexer

namespace Parser

/-- A program that only shows an expression. -/
theorem parse_output {e : Expr} (he : e.Normal) {words : List (Located Token)}
    (hw : words.map Located.val = e.tokens) :
    parse (⟨1, .keyword .erwache⟩ :: ⟨1, .keyword .vorstellung⟩ ::
      (words ++ [⟨1, .newline⟩, ⟨1, .eof⟩])) = .ok (.output 1 e .done) := by
  have hc : (State.mk (.operator (.output 1) e) .done []).Completes
      [⟨1, .newline⟩, ⟨1, .eof⟩] (.output 1 e .done) :=
    ⟨⟨.finished, .output 1 e .done, []⟩, rfl, rfl⟩
  have hv : (State.mk .statement .done []).Completes (⟨1, .keyword .vorstellung⟩ ::
      (words ++ [⟨1, .newline⟩, ⟨1, .eof⟩])) (.output 1 e .done) :=
    .of_step rfl (.expr he hw hc)
  exact parse_eq_ok.2 (hv.of_step rfl)

end Parser

namespace Toolchain

variable {source : String} {program : Block}

/-- An expression of a program is read back from what it displays: all of it, wherever an
expression is due. -/
theorem display_reread (h : (parse source).result = .ok program) :
    program.Every fun whole => ∀ e : Expr, e.IsPart whole → e.Legible →
      ∃ words, Lexer.tokenize e.display = .ok (words ++ [⟨1, .newline⟩, ⟨1, .eof⟩]) ∧
        (∀ line rest, Parser.NoOperator rest →
          ∃ r, (Parser.Cursor.mk (words ++ rest) line).expr = .ok r ∧ r.value = e ∧
            r.rest.tokens = rest) ∧
        (∀ purpose current frames rest,
          (Parser.State.mk (.operand ⟨purpose, none⟩) current frames).run (words ++ rest) =
            (Parser.State.mk (.operator purpose e) current frames).run rest) ∧
        (parse ("ERWACHE VORSTELLUNG " ++ e.display)).result = .ok (.output 1 e .done) := by
  refine (every_normal_of_result h).imp fun whole hn e hp he => ?_
  have hn : e.Normal := hp.normal hn
  let words := e.tokens.map (Located.mk 1)
  have hw : words.map Located.val = e.tokens := by
    rw [List.map_map]
    exact List.map_id _
  refine ⟨words, Lexer.tokenize_display he, fun line rest hr => ?_,
    fun purpose current frames rest => ?_, ?_⟩
  · exact Parser.readsTokens_expr _ hn (Nat.zero_le _) _ hw _ line hr.looser
  · have hl : ∀ x op, (Parser.Due.mk purpose none).before = some (x, op) → op.level < e.level :=
      nofun
    exact Parser.State.run_operand hn hl hw rest
  · exact result_of_tokens (Lexer.tokenize_output_display he) (Parser.parse_output hn hw)

theorem display_reread_sum :
    let product : Expr := .binary (.slot 1) (.arith .mod) (.number 3)
    let sum : Expr := .binary (.number 2) (.arith .add) product
    let e : Expr := .binary sum (.compare .notEqual) (.text "a;\"\\")
    let source := "erwache\nwenn 02+ding 1 mod 3 != \"a;\\\"\\\\\" dann vorstellung a ende"
    (parse source).result = .ok (.branch 2 e (.output 2 (.text "a") .done) .done .done) ∧
      e.Legible ∧ e.display = "2 + DING 1 MOD 3 != \"a;\\\"\\\\\"" ∧
      (parse "ERWACHE VORSTELLUNG 2 + DING 1 MOD 3 != \"a;\\\"\\\\\"").result =
        .ok (.output 1 e .done) := by
  intro product sum e source
  have h : (parse source).result =
      .ok (.branch 2 e (.output 2 (.text "a") .done) .done .done) := by decide +kernel
  have he : e.Legible := by decide +kernel
  have hd : e.display = "2 + DING 1 MOD 3 != \"a;\\\"\\\\\"" := by decide +kernel
  obtain ⟨words, -, -, -, hr⟩ := (display_reread h).1 e (.self e) he
  rw [hd] at hr
  exact ⟨h, he, hd, hr⟩

end Toolchain

end Octet
