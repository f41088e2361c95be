import Octet.Proofs.Assembly.Verdict
import Octet.Machine

namespace Octet.Assembly

variable {listing : String} {lines : List (List Char)} {program : Program} {n m position : Nat}
  {i : Instruction} {word other : List Char} {key text : String}

section Mentions

/-- An operand of the instruction on a line is written with a word. -/
def Mentions (lines : List (List Char)) (n : Nat) (i : Instruction) (position : Nat)
    (word : List Char) : Prop :=
  OnLine lines n fun earlier line =>
    (Counts earlier line ∧ Fits (partAfter (earlier ++ [line])) line (.instruction i)) ∧
      ∃ name words, Text.Words isGap line (name :: words) ∧ words[position]? = some word

theorem mentions_of_fields {earlier : List (List Char)} {line name : List Char}
    {words : List (List Char)} (hl : earlier ++ [line] <+: lines) (hc : Counts earlier line)
    (hf : Fits (partAfter (earlier ++ [line])) line (.instruction i))
    (hw : Text.fields isGap line = name :: words) (hp : words[position]? = some word) :
    Mentions lines (earlier.length + 1) i position word :=
  ⟨earlier, line, hl, rfl, ⟨hc, hf⟩, name, words, hw ▸ Text.words_fields isGap line, hp⟩

theorem Mentions.says (h : Mentions lines n i position word) : Says lines n (.instruction i) := by
  obtain ⟨earlier, line, hl, hn, hi, -⟩ := h
  exact ⟨earlier, line, hl, hn, hi⟩

/-- A word that spells an operand is read as that operand. -/
theorem Mentions.operand {o : Operand} (h : Mentions lines n i position word)
    (hw : Operand.Spells word o) : i.operands[position]? = some o := by
  obtain ⟨earlier, line, -, -, ⟨-, hf⟩, name, words, hwords, hp⟩ := h
  generalize partAfter (earlier ++ [line]) = part at hf
  cases hf with
  | instruction _ hs =>
    obtain ⟨hwords', -, ho⟩ := hs
    cases hwords.fields_eq.symm.trans hwords'.fields_eq
    obtain ⟨hlen, hget⟩ := List.getElem?_eq_some_iff.1 hp
    have hlen' := ho.length_eq ▸ hlen
    have hspells := ho.get hlen hlen'
    rw [List.get_eq_getElem, List.get_eq_getElem, hget] at hspells
    have hr := (Operand.read_of_spells hw).symm.trans (Operand.read_of_spells hspells)
    rw [List.getElem?_eq_getElem hlen', Except.ok.inj hr]

/-- Every operand of an instruction is written with some word. -/
theorem exists_mentions {o : Operand} (h : Says lines n (.instruction i)) (ho : o ∈ i.operands) :
    ∃ position word, Mentions lines n i position word ∧ Operand.Spells word o := by
  obtain ⟨earlier, line, hl, hn, hc, hf⟩ := h
  have hfits := hf
  generalize partAfter (earlier ++ [line]) = part at hf
  cases hf with
  | instruction _ hs =>
    obtain ⟨hwords, -, hos⟩ := hs
    obtain ⟨position, hp, rfl⟩ := List.getElem_of_mem ho
    have hp' := hos.length_eq.symm ▸ hp
    have hspells := hos.get hp' hp
    exact ⟨position, _, ⟨earlier, line, hl, hn, ⟨hc, hfits⟩, _, _, hwords,
      List.getElem?_eq_getElem hp'⟩, hspells⟩

theorem Mentions.word_unique {j : Instruction} (h : Mentions lines n i position word)
    (h' : Mentions lines n j position other) : word = other := by
  obtain ⟨_, _, ⟨-, _, _, hw, hp⟩, -, _, _, hw', hp'⟩ := OnLine.exists_and h h'
  cases hw.fields_eq.symm.trans hw'.fields_eq
  exact Option.some.inj (hp.symm.trans hp')

end Mentions

section Keys

/-- The last entry under a key holds a text. -/
def Holds (lines : List (List Char)) (key text : String) : Prop :=
  ∃ n, IsGreatest {n | ∃ text, Says lines n (.entry key text)} n ∧ Says lines n (.entry key text)

/-- Every line fits its part, and what a key names is defined wherever it is not written with one
certain word. -/
structure AcceptedBut (lines : List (List Char)) (word : List Char) : Prop where
  fits : ∀ n e, ¬Objects lines n e
  defined : ∀ n i position other key, Mentions lines n i position other →
    Operand.Spells other (.data key) → other ≠ word → Defines lines key

/-- Each operand that is written as the key of some entry is written is found, and is the text of
the last of these entries. -/
def FoundAsWritten (listing : String) (word : List Char) : Prop :=
  ∀ text, Holds (contents listing) (String.ofList word) text →
    ∀ n i position, Mentions (contents listing) n i position word →
      ∃ program, read listing = .ok program ∧ ⟨n, i⟩ ∈ program.instructions.toList ∧
        ∀ registers, Machine.valueAt program registers i.operands position = .ok (.text text)

theorem Holds.defines (h : Holds lines key text) : Defines lines key := by
  obtain ⟨n, -, hn⟩ := h
  exact ⟨n, text, hn⟩

theorem valueAt_of_data (ho : i.operands[position]? = some (.data key))
    (hd : program.data.get? key = some text) (registers : Memory) :
    Machine.valueAt program registers i.operands position = .ok (.text text) := by
  simp only [Machine.valueAt, ho, hd]

theorem get?_of_valueAt (ho : i.operands[position]? = some (.data key)) {registers : Memory}
    (h : Machine.valueAt program registers i.operands position = .ok (.text text)) :
    program.data.get? key = some text := by
  simp only [Machine.valueAt, ho] at h
  split at h
  · next found hd =>
    cases h
    exact hd
  · cases h

theorem acceptedBut_of_read (h : read listing = .ok program) (word : List Char) :
    AcceptedBut (contents listing) word := by
  obtain ⟨hn, hd, hu⟩ := describes_of_read h
  refine ⟨hn, fun n i position other key hm hother _ => ?_⟩
  exact hd.undefined?_eq_none_iff.1 hu n i hm.says key (List.mem_of_getElem? (hm.operand hother))

theorem AcceptedBut.defines (ha : AcceptedBut lines word) (hw : Operand.Spells word (.data key))
    (hk : Defines lines key) (hs : Says lines n (.instruction i)) {name : String}
    (ho : .data name ∈ i.operands) : Defines lines name := by
  obtain ⟨position, other, hm, hother⟩ := exists_mentions hs ho
  by_cases he : other = word
  · subst he
    have hr := (Operand.read_of_spells hw).symm.trans (Operand.read_of_spells hother)
    cases hr
    exact hk
  · exact ha.defined n i position other name hm hother he

/-- With the key in place the listing is accepted. -/
theorem AcceptedBut.read_eq_ok (ha : AcceptedBut (contents listing) word)
    (hw : Operand.Spells word (.data key)) (hk : Defines (contents listing) key) :
    ∃ program, read listing = .ok program ∧ Describes (contents listing) program := by
  obtain ⟨program, hd, hr⟩ := read_of_not_objects ha.fits
  have hu : undefined? program = none :=
    hd.undefined?_eq_none_iff.2 fun _ _ hs _ ho => ha.defines hw hk hs ho
  rw [hu] at hr
  exact ⟨program, hr, hd⟩

/-- Without it the first line that names it is refused. -/
theorem AcceptedBut.read_eq_error (ha : AcceptedBut (contents listing) word)
    (hw : Operand.Spells word (.data key)) (hm : Mentions (contents listing) n i position word)
    (hk : ¬Defines (contents listing) key) :
    ∃ m ≤ n, read listing = .error ⟨m, .undefinedData key⟩ := by
  obtain ⟨program, hd, hr⟩ := read_of_not_objects ha.fits
  have ho : .data key ∈ i.operands := List.mem_of_getElem? (hm.operand hw)
  cases hu : undefined? program with
  | none => exact absurd (hd.undefined?_eq_none_iff.1 hu n i hm.says key ho) hk
  | some e =>
    rw [hu] at hr
    obtain ⟨name, he, ⟨j, before, after, hs, hj, hn, -⟩, hfirst⟩ := hd.undefined?_eq_some_iff.1 hu
    obtain ⟨at', other, hm', hother⟩ := exists_mentions (o := .data name) hs (by simp [hj])
    obtain rfl : other = word := by
      by_contra hne
      exact hn (ha.defined _ _ _ _ _ hm' hother hne)
    have hsame := (Operand.read_of_spells hw).symm.trans (Operand.read_of_spells hother)
    cases hsame
    refine ⟨e.line, Nat.le_of_not_lt fun hlt => hk (hfirst n hlt i hm.says key ho), ?_⟩
    rw [hr, ← he]

/-- An operand is the text of the last entry whose key has the small letter. -/
theorem AcceptedBut.found (ha : AcceptedBut (contents listing) word)
    (hw : Operand.Spells word (.data key)) (hm : Mentions (contents listing) n i position word)
    (hk : Holds (contents listing) key text) :
    ∃ program, read listing = .ok program ∧ ⟨n, i⟩ ∈ program.instructions.toList ∧
      ∀ registers, Machine.valueAt program registers i.operands position = .ok (.text text) := by
  obtain ⟨program, hr, hd⟩ := ha.read_eq_ok hw hk.defines
  exact ⟨program, hr, (hd.instruction n i).2 hm.says,
    valueAt_of_data (hm.operand hw) ((hd.data key text).2 hk)⟩

/-- Where a listing is accepted but for the key that an operand is written with, the operand is
looked up with a small letter, while an entry stands as it is written: it is the text of the last
entry under the small spelling, and for want of such an entry the listing is refused. So a key is
found as it is written if it is written small, and if not, only where the last entry under the small
spelling holds the same text. -/
theorem foundAsWritten_iff (hw : Operand.Spells word (.data key))
    (ha : AcceptedBut (contents listing) word)
    (hm : Mentions (contents listing) n i position word) :
    (FoundAsWritten listing word ↔ ∀ text, Holds (contents listing) (String.ofList word) text →
      Holds (contents listing) key text) ∧
    (word.head? = some 's' → FoundAsWritten listing word) ∧
    (∀ text, Holds (contents listing) key text →
      ∃ program, read listing = .ok program ∧ ⟨n, i⟩ ∈ program.instructions.toList ∧
        ∀ registers, Machine.valueAt program registers i.operands position = .ok (.text text)) ∧
    (¬Defines (contents listing) key →
      ∃ m ≤ n, read listing = .error ⟨m, .undefinedData key⟩) := by
  have hiff : FoundAsWritten listing word ↔
      ∀ text, Holds (contents listing) (String.ofList word) text →
        Holds (contents listing) key text := by
    constructor
    · intro hf text ht
      obtain ⟨program, hr, -, hv⟩ := hf text ht n i position hm
      obtain ⟨-, hd, -⟩ := describes_of_read hr
      exact (hd.data key text).1 (get?_of_valueAt (hm.operand hw) (hv .initial))
    · intro hk text ht m j at' hm'
      exact ha.found hw hm' (hk text ht)
  refine ⟨hiff, fun hs => hiff.2 fun text ht => ?_, fun text => ha.found hw hm,
    ha.read_eq_error hw hm⟩
  cases hw with
  | data hc hn hd =>
    obtain rfl := Option.some.inj hs
    exact ht

/-- An entry with a capital letter is found if one with the small letter has the same text. -/
theorem foundAsWritten_iff_both :
    let listing := ".code\ntar r0, S0\n.data\nS0: \"a\"\ns0: \"b\"\nS0: \"b\""
    Operand.Spells "S0".toList (.data "s0") ∧ AcceptedBut (contents listing) "S0".toList ∧
      Mentions (contents listing) 2 ⟨.tar, [.register 0, .data "s0"]⟩ 1 "S0".toList ∧
      Holds (contents listing) "S0" "b" ∧ FoundAsWritten listing "S0".toList := by
  intro listing
  let program : Program :=
    ⟨#[⟨2, .tar, [.register 0, .data "s0"]⟩], .empty, ⟨[("S0", "b"), ("s0", "b")]⟩⟩
  have hread : read listing = .ok program := by decide +kernel
  obtain ⟨-, hd, -⟩ := describes_of_read hread
  have hw : Operand.Spells "S0".toList (.data "s0") := Operand.read_eq_ok_iff.1 (by decide +kernel)
  have ha := acceptedBut_of_read hread "S0".toList
  have hi : Fits .code "tar r0, S0".toList (.instruction ⟨.tar, [.register 0, .data "s0"]⟩) :=
    .instruction (by decide) (Instruction.read_eq_ok_iff.1 (by decide +kernel))
  have hl : [".code".toList] ++ ["tar r0, S0".toList] <+: contents listing := by decide +kernel
  have hwords : Text.fields isGap "tar r0, S0".toList =
    ["tar".toList, "r0".toList, "S0".toList] := by decide +kernel
  have hm : Mentions (contents listing) 2 ⟨.tar, [.register 0, .data "s0"]⟩ 1 "S0".toList :=
    mentions_of_fields hl ⟨by decide, by decide, by decide +kernel⟩ hi hwords rfl
  have hkey : ∀ text, Holds (contents listing) "S0" text → Holds (contents listing) "s0" text := by
    intro text ht
    have hg := (hd.data "S0" text).2 ht
    exact (hd.data "s0" text).1 hg
  exact ⟨hw, ha, hm, (hd.data "S0" "b").1 rfl, (foundAsWritten_iff hw ha hm).1.2 hkey⟩

/-- Without such an entry the listing is refused, and it is the only thing that is wrong with it. -/
theorem not_foundAsWritten_capital :
    let listing := ".data\nS0: \"x\"\n.code\ntar r0, S0"
    Operand.Spells "S0".toList (.data "s0") ∧ AcceptedBut (contents listing) "S0".toList ∧
      Mentions (contents listing) 4 ⟨.tar, [.register 0, .data "s0"]⟩ 1 "S0".toList ∧
      Holds (contents listing) "S0" "x" ∧
      read listing = .error ⟨4, .undefinedData "s0"⟩ ∧ ¬FoundAsWritten listing "S0".toList := by
  intro listing
  let i : Instruction := ⟨.tar, [.register 0, .data "s0"]⟩
  let reader : Reader := ⟨.code, ⟨#[⟨4, i⟩], .empty, ⟨[("S0", "x")]⟩⟩⟩
  have hlines : Reader.initial.readLines 1 (Text.lines listing.toList) = .ok reader := by
    decide +kernel
  have hreads := reads_contents listing
  rw [hlines] at hreads
  obtain ⟨-, hn, hd⟩ := hreads
  have hw : Operand.Spells "S0".toList (.data "s0") := Operand.read_eq_ok_iff.1 (by decide +kernel)
  have hi : Fits .code "tar r0, S0".toList (.instruction i) :=
    .instruction (by decide) (Instruction.read_eq_ok_iff.1 (by decide +kernel))
  have hl : [".data".toList, "S0: \"x\"".toList, ".code".toList] ++ ["tar r0, S0".toList] <+:
      contents listing := by decide +kernel
  have hwords : Text.fields isGap "tar r0, S0".toList =
    ["tar".toList, "r0".toList, "S0".toList] := by decide +kernel
  have hm : Mentions (contents listing) 4 i 1 "S0".toList :=
    mentions_of_fields hl ⟨by decide, by decide, by decide +kernel⟩ hi hwords rfl
  have ha : AcceptedBut (contents listing) "S0".toList := by
    refine ⟨hn, fun n j position other key hother hspells hne => absurd ?_ hne⟩
    have hj : ⟨n, j⟩ ∈ [(⟨4, i⟩ : Located Instruction)] := (hd.instruction n j).2 hother.says
    cases List.mem_singleton.1 hj
    have ho := hother.operand hspells
    match position, ho with
    | 1, _ => exact hother.word_unique hm
  have hread : read listing = .error ⟨4, .undefinedData "s0"⟩ := by decide +kernel
  have hx : Holds (contents listing) "S0" "x" := (hd.data "S0" "x").1 rfl
  refine ⟨hw, ha, hm, hx, hread, fun hf => ?_⟩
  obtain ⟨program, hok, -⟩ := hf "x" hx 4 i 1 hm
  cases hread.symm.trans hok

end Keys

end Octet.Assembly
