import Octet.Proofs.Assembly.Forms
import Octet.Proofs.Machine.Order

namespace Octet

namespace Text

variable {s : List Char} {i : Int}

/-- A text that stands for a number: an integer of 64 bits between blanks, or blanks alone, which
stand for zero. -/
inductive IsNumeral : List Char → Int → Prop
  | blank {s : List Char} (h : ∀ c ∈ s, isBlank c = true) : IsNumeral s 0
  | integer {left word right : List Char} {i : Int} (hl : ∀ c ∈ left, isBlank c = true)
      (hr : ∀ c ∈ right, isBlank c = true) (h : IsInteger word i) :
      IsNumeral (left ++ word ++ right) i

theorem IsInteger.ne_nil (h : IsInteger s i) : s ≠ [] := by
  cases h with
  | plain hn hd hb => exact hn
  | plus hn hd hb | minus hn hd hb => exact List.cons_ne_nil _ _

theorem IsInteger.isBlank_eq_false (h : IsInteger s i) : ∀ c ∈ s, isBlank c = false := by
  have hdigit (c : Char) (hc : c.isDigit = true) : isBlank c = false :=
    Assembly.isBlank_of_isMark (Assembly.isMark_of_isDigit hc)
  cases h with
  | plain hn hd hb => exact fun c hc => hdigit c (hd c hc)
  | plus hn hd hb | minus hn hd hb =>
    exact List.forall_mem_cons.2 ⟨rfl, fun c hc => hdigit c (hd c hc)⟩

theorem trim_of_blank (h : ∀ c ∈ s, isBlank c = true) : trim s = [] := by
  have ht : trim (s ++ [] ++ []) = [] := trim_margins h nofun nofun nofun
  rwa [List.append_nil, List.append_nil] at ht

end Text

section Readings

variable {t : String} {i : Int}

/-- The texts that are read as numbers, by arithmetic and by comparisons alike. -/
theorem reading_eq_some_iff : reading t = some i ↔ Text.IsNumeral t.toList i := by
  constructor
  · intro h
    obtain ⟨left, right, hl, hr, hs⟩ := Text.exists_margins t.toList
    rw [reading] at h
    split at h
    · next ht =>
      cases h
      rw [hs, ht, List.append_nil]
      exact .blank (List.forall_mem_append.2 ⟨hl, hr⟩)
    · rw [hs]
      exact .integer hl hr (Text.readInt_eq_some_iff.1 h)
  · rw [reading]
    generalize t.toList = s
    intro h
    cases h with
    | blank h => rw [Text.trim_of_blank h]
    | integer hl hr h =>
      have hb := h.isBlank_eq_false
      rw [Text.trim_margins hl hr (fun c hc => hb c (List.mem_of_head? hc))
        fun c hc => hb c (List.mem_of_getLast? hc)]
      split
      · exact absurd rfl h.ne_nil
      · exact Text.readInt_eq_some_iff.2 h

end Readings

theorem wrap_toNat (n : UInt8) : wrap n.toNat = n := by
  have hw := toNat_wrap n.toNat
  have hn := n.toNat_lt
  rw [← UInt8.toNat_inj]
  omega

namespace Value

variable {t : String} {i : Int} {v : Value}

/-- The values that a line of input can give: the numbers, and the texts that are none. -/
def IsCanonical : Value → Prop
  | number _ => True
  | text s => (text s).reading? = none

instance : (v : Value) → Decidable v.IsCanonical
  | number _ => inferInstanceAs (Decidable True)
  | text s => inferInstanceAs (Decidable ((text s).reading? = none))

theorem ofInput_of_some (h : reading t = some i) : ofInput t = ofInt i := by
  rw [ofInput, h]

theorem ofInput_of_none (h : reading t = none) : ofInput t = text t := by
  rw [ofInput, h]

theorem isCanonical_ofInput (t : String) : (ofInput t).IsCanonical := by
  cases h : reading t with
  | none =>
    rw [ofInput_of_none h]
    exact h
  | some i =>
    rw [ofInput_of_some h]
    trivial

/-- What a canonical value is displayed as gives that value as a line of input. -/
theorem ofInput_display (h : v.IsCanonical) : ofInput v.display = v := by
  cases v with
  | number n =>
    rw [display, ofInput_of_some (reading_repr n), ofInt, wrap_toNat]
  | text s => exact ofInput_of_none h

theorem isCanonical_iff : v.IsCanonical ↔ ∃ t, ofInput t = v := by
  refine ⟨fun h => ⟨v.display, ofInput_display h⟩, ?_⟩
  rintro ⟨t, rfl⟩
  exact isCanonical_ofInput t

/-- Reading a line undoes displaying a value. A line gives a number, or itself where it has no
reading; the values that lines give are those that come back from what they are displayed as; and a
line gives the byte of the number that arithmetic and comparisons take it for. -/
theorem ofInput_inverts_display :
    (∀ t, (∃ n, ofInput t = number n) ∨ ofInput t = text t ∧ (text t).reading? = none) ∧
    (∀ v : Value, v.IsCanonical → ofInput v.display = v) ∧
    (∀ v : Value, v.IsCanonical ↔ ∃ t, ofInput t = v) ∧
    (∀ t i, (text t).reading? = some i →
      ∃ n, ofInput t = number n ∧ (n.toNat : Int) = i % 256) ∧
    (∀ t i, ((text t).reading? = some i ↔ Text.IsNumeral t.toList i) ∧
      ((text t).toNumber = .ok i ↔ Text.IsNumeral t.toList i)) ∧
    ∀ t, ofInput (ofInput t).display = ofInput t := by
  refine ⟨fun t => ?_, fun v => ofInput_display, fun v => isCanonical_iff, fun t i h => ?_,
    fun t i => ⟨reading_eq_some_iff, toNumber_eq_ok_iff.trans reading_eq_some_iff⟩,
    fun t => ofInput_display (isCanonical_ofInput t)⟩
  · cases h : reading t with
    | none => exact .inr ⟨ofInput_of_none h, h⟩
    | some i => exact .inl ⟨wrap i, ofInput_of_some h⟩
  · exact ⟨wrap i, ofInput_of_some h, toNat_wrap i⟩

theorem ofInput_inverts_display_spellings :
    (text "3.5").IsCanonical ∧ ofInput "3.5" = text "3.5" ∧
      (text "\t+0300 ").reading? = some 300 ∧ ofInput "\t+0300 " = number 44 := by
  have hw : (text "3.5").IsCanonical := by decide
  have hn : (text "\t+0300 ").reading? = some 300 := by decide
  obtain ⟨-, hback, -, hbyte, -⟩ := ofInput_inverts_display
  obtain ⟨n, ho, hv⟩ := hbyte _ _ hn
  obtain rfl : n = 44 := UInt8.toNat_inj.1 (Int.ofNat_inj.1 hv)
  exact ⟨hw, hback _ hw, hn, ho⟩

end Value

end Octet
