import Octet.Proofs.Assembly.Sections
import Octet.Proofs.Text.Pieces

namespace Octet.Assembly

variable {key text : String} {line front s : List Char} {reader next : Reader} {number : Nat}

section Writing

def IsKey (key : String) : Prop := key ≠ "" ∧ ∀ c ∈ key.toList, c.isAlphanum = true ∨ c = '_'

/-- Blanks inside a line. -/
def IsMargin (s : List Char) : Prop := ∀ c ∈ s, Text.isBlank c = true ∧ c ≠ '\n'

instance (s : List Char) : Decidable (IsMargin s) := List.decidableBAll _ s

instance (key : String) : Decidable (IsKey key) :=
  have : Decidable (∀ c ∈ key.toList, c.isAlphanum = true ∨ c = '_') := List.decidableBAll _ _
  instDecidableAnd

theorem isMargin_nil : IsMargin [] := nofun

theorem isMargin_space : IsMargin [' '] := by decide +kernel

/-- A line that writes an entry: its text is escaped, there may be blanks around the key, the colon
and the text, and a comment behind. -/
inductive WritesEntry : List Char → String → String → Prop
  | intro {key text : String} {left before after right comment : List Char} (hk : IsKey key)
      (hl : IsMargin left) (hb : IsMargin before) (ha : IsMargin after) (hr : IsMargin right)
      (hc : Text.IsComment comment) :
      WritesEntry (left ++ key.toList ++ before ++ ':' ::
        (after ++ '"' :: (Text.escape text.toList ++ '"' :: (right ++ comment)))) key text

/-- The line that writes an entry as listings have it, without blanks around it. -/
def entryLine (key text : String) : List Char :=
  key.toList ++ ':' :: ' ' :: '"' :: (Text.escape text.toList ++ ['"'])

theorem writesEntry_entryLine (hk : IsKey key) (text : String) :
    WritesEntry (entryLine key text) key text := by
  have h : WritesEntry _ key text :=
    .intro hk isMargin_nil isMargin_nil isMargin_space isMargin_nil (.inl rfl)
  simpa [entryLine] using h

theorem WritesEntry.newline_notMem (h : WritesEntry line key text) : '\n' ∉ line := by
  cases h with
  | intro hk hl hb ha hr hc =>
    have hn : '\n' ∉ key.toList := fun hm => absurd (hk.2 _ hm) (by decide)
    have hm : ∀ {margin}, IsMargin margin → '\n' ∉ margin := fun h hn => (h _ hn).2 rfl
    simp [hn, hm hl, hm hb, hm ha, hm hr, hc.newline_notMem, Text.newline_notMem_escape]

end Writing

section Content

theorem Closed.append_of_plain (hp : ∀ c ∈ s, c ≠ '"' ∧ c ≠ ';') {rest : List Char}
    (h : Closed rest) : Closed (s ++ rest) := by
  induction s with
  | nil => exact h
  | cons c s ih =>
    obtain ⟨hq, hs⟩ := hp c (by simp)
    exact .plain hq hs (ih fun d hd => hp d (by simp [hd]))

theorem plain_of_isMargin (h : IsMargin s) : ∀ c ∈ s, c ≠ '"' ∧ c ≠ ';' := by
  intro c hc
  have hb := (h c hc).1
  constructor <;> (rintro rfl; cases hb)

/-- A comment is cut off behind what is closed. -/
theorem uncommented_append_comment (h : Closed s) {comment : List Char}
    (hc : Text.IsComment comment) : uncommented (s ++ comment) = s := by
  obtain rfl | ⟨rest, rfl, -⟩ := hc
  · rw [List.append_nil]
    exact (Uncomments.whole h).eq
  · exact (Uncomments.comment h rest).eq

section Margins

variable {left before after right comment : List Char}

theorem plain_of_isKey (hk : IsKey key) : ∀ c ∈ key.toList, c ≠ '"' ∧ c ≠ ';' := by
  intro c hc
  obtain hw | rfl := hk.2 c hc
  · exact plain_of_isMark (by simp [isMark, hw])
  · decide

theorem closed_entry (hk : IsKey key) (hl : IsMargin left) (hb : IsMargin before)
    (ha : IsMargin after) (hr : IsMargin right) (text : String) :
    Closed (left ++ key.toList ++ before ++ ':' ::
      (after ++ '"' :: (Text.escape text.toList ++ '"' :: right))) := by
  have hright : Closed right := by
    have h := Closed.nil.append_of_plain (plain_of_isMargin hr)
    rwa [List.append_nil] at h
  have htext : Closed ('"' :: (Text.escape text.toList ++ '"' :: right)) :=
    .text (Text.escapes_escape _) hright
  have hvalue := Closed.plain (c := ':') (by decide) (by decide)
    (htext.append_of_plain (plain_of_isMargin ha))
  have hkey := (hvalue.append_of_plain (plain_of_isMargin hb)).append_of_plain (plain_of_isKey hk)
  rw [List.append_assoc, List.append_assoc]
  exact hkey.append_of_plain (plain_of_isMargin hl)

/-- The reader sees an entry without the blanks around it and the comment behind it. -/
theorem content_entry (hk : IsKey key) (hl : IsMargin left) (hb : IsMargin before)
    (ha : IsMargin after) (hr : IsMargin right) (hc : Text.IsComment comment) (text : String) :
    content (left ++ key.toList ++ before ++ ':' ::
      (after ++ '"' :: (Text.escape text.toList ++ '"' :: (right ++ comment)))) =
        key.toList ++ before ++ ':' :: (after ++ '"' :: (Text.escape text.toList ++ ['"'])) := by
  let entry := key.toList ++ before ++ ':' :: (after ++ '"' :: (Text.escape text.toList ++ ['"']))
  have hu := uncommented_append_comment (closed_entry hk hl hb ha hr text) hc
  have hf : ∀ c ∈ entry.head?, Text.isBlank c = false := by
    intro c hc
    obtain ⟨d, w, hw⟩ := List.exists_cons_of_ne_nil (mt String.toList_eq_nil_iff.1 hk.1)
    obtain rfl : d = c := by simpa [entry, hw] using hc
    exact isBlank_of_isWord (hk.2 d (by simp [hw]))
  have hq : ∀ c ∈ entry.getLast?, Text.isBlank c = false := by
    have hs : entry =
        (key.toList ++ before ++ ':' :: (after ++ '"' :: Text.escape text.toList)) ++ ['"'] := by
      simp [entry]
    rw [hs, List.getLast?_concat]
    rintro _ ⟨⟩
    rfl
  have ht := Text.trim_margins (fun c hm => (hl c hm).1) (fun c hm => (hr c hm).1) hf hq
  have hs : left ++ entry ++ right = left ++ key.toList ++ before ++ ':' ::
      (after ++ '"' :: (Text.escape text.toList ++ '"' :: right)) := by simp [entry]
  have hline : left ++ key.toList ++ before ++ ':' ::
      (after ++ '"' :: (Text.escape text.toList ++ '"' :: (right ++ comment))) =
        left ++ entry ++ right ++ comment := by simp [entry]
  rw [hline, content, hs, hu, ← hs]
  exact ht

theorem isEntry_escape (hk : IsKey key) (hb : IsMargin before) (ha : IsMargin after)
    (text : String) : IsEntry (key.toList ++ before ++ ':' ::
      (after ++ '"' :: (Text.escape text.toList ++ ['"']))) key text := by
  have hn : ∀ c ∈ [], Text.isBlank c = true := nofun
  have h := IsEntry.intro hn (mt String.toList_eq_nil_iff.1 hk.1) hk.2 (fun c hm => (hb c hm).1)
    (fun c hm => (ha c hm).1) (Text.escapes_escape text.toList) hn
  rwa [String.ofList_toList, String.ofList_toList, List.nil_append] at h

end Margins

/-- What the reader sees of a line that writes an entry is the entry. -/
theorem WritesEntry.isEntry (h : WritesEntry line key text) : IsEntry (content line) key text := by
  cases h with
  | intro hk hl hb ha hr hc =>
    rw [content_entry hk hl hb ha hr hc]
    exact isEntry_escape hk hb ha text

theorem IsEntry.isKey (h : IsEntry s key text) : IsKey key := by
  obtain ⟨-, hk, hw, -, -, -, -⟩ := h
  exact ⟨by simpa using hk, by simpa using hw⟩

end Content

section Reader

/-- An entry is neither an empty line nor a header. -/
theorem IsEntry.header? (h : IsEntry s key text) : s ≠ [] ∧ header? s = none := by
  have hc : ':' ∈ s := by
    cases h
    simp
  refine ⟨List.ne_nil_of_mem hc, header?_eq_none_iff.2 ⟨?_, ?_⟩⟩
  · rintro rfl
    revert hc
    decide
  · rintro rfl
    revert hc
    decide

theorem readLine_of_isEntry (hp : reader.part = .data) (h : IsEntry s key text) :
    reader.readLine number s =
      .ok { reader with program := reader.program.addData key text } := by
  obtain ⟨hn, hh⟩ := h.header?
  rw [readLine_of_content hn hh, hp]
  simp only [Reader.readData, entry?_of_isEntry h, hp]

/-- A line of the data that is accepted is an entry. -/
theorem isEntry_of_readLine (hp : reader.part = .data) (hn : s ≠ []) (hh : header? s = none)
    (h : reader.readLine number s = .ok next) :
    ∃ key text, IsEntry s key text ∧
      next = { reader with program := reader.program.addData key text } := by
  rw [readLine_of_content hn hh, hp] at h
  simp only [Reader.readData] at h
  split at h
  · next key text he =>
    cases h
    exact ⟨key, text, isEntry_of_eq_some he, rfl⟩
  · cases h

namespace Reader

/-- How the lines of a text leave the reader. -/
def after (text : List Char) : Except (Located AssemblyError) Reader :=
  initial.readLines 1 (Text.lines text)

/-- One entry more, and nothing else. -/
structure Defines (reader : Reader) (key text : String) (next : Reader) : Prop where
  part : next.part = reader.part
  instructions : next.program.instructions = reader.program.instructions
  labels : next.program.labels = reader.program.labels
  data : ∀ other, next.program.data.get? other =
    if other = key then some text else reader.program.data.get? other

/-- Behind some text a line, the last one or not, is accepted and leads to a reader. -/
def Takes (front line : List Char) (next : Reader) : Prop :=
  after (front ++ line) = .ok next ∧ ∀ back, after (front ++ line ++ '\n' :: back) =
    next.readLines (front.count '\n' + 2) (Text.lines back)

theorem defines_addData (reader : Reader) (key text : String) :
    reader.Defines key text { reader with program := reader.program.addData key text } :=
  ⟨rfl, rfl, rfl, fun other => Table.get?_put _ key text other⟩

theorem after_append (hb : Text.Begins front) (hf : after front = .ok reader) (s : List Char) :
    after (front ++ s) = reader.readLines (front.count '\n' + 1) (Text.lines s) := by
  rw [after] at hf ⊢
  rw [Text.lines_append_of_begins hb, readLines_append, hf, Text.length_lines_of_begins hb,
    Nat.add_comm]
  rfl

theorem takes_of_readLine (hb : Text.Begins front) (hf : after front = .ok reader)
    (hl : '\n' ∉ line) (hn : line ≠ [])
    (h : reader.readLine (front.count '\n' + 1) (content line) = .ok next) :
    Takes front line next := by
  refine ⟨?_, fun back => ?_⟩
  · rw [after_append hb hf, Text.lines_of_not_mem hl hn, readLines_cons h]
    rfl
  · have hc : reader.readLine (front.count '\n' + 1) (content (Text.chomp line)) = .ok next := by
      rw [content_chomp, h]
    rw [List.append_assoc, after_append hb hf, Text.lines_append, Text.pieces_of_not_mem hl]
    exact readLines_cons hc _

theorem readLine_of_after (hb : Text.Begins front) (hf : after front = .ok reader)
    (hl : '\n' ∉ line) (hn : line ≠ []) (h : after (front ++ line) = .ok next) :
    reader.readLine (front.count '\n' + 1) (content line) = .ok next := by
  rw [after_append hb hf, Text.lines_of_not_mem hl hn, readLines] at h
  rw [content]
  split at h
  · next read hr =>
    cases h
    exact hr
  · cases h

end Reader

end Reader

section Entries

/-- An entry more makes no key undefined. -/
theorem undefined?_addData {program : Program} (h : undefined? program = none)
    (key text : String) : undefined? (program.addData key text) = none := by
  rw [undefined?, List.findSome?_eq_none_iff] at h ⊢
  intro instruction hi
  have h := h instruction hi
  rw [List.findSome?_eq_none_iff] at h ⊢
  intro operand ho
  have h := h operand ho
  cases operand with
  | data name =>
    have hg : ((program.addData key text).data.get? name).isSome = true := by
      have hs : (program.data.get? name).isSome = true :=
        Option.isSome_iff_ne_none.2 (by simpa using h)
      rw [Program.addData, Table.get?_put]
      split
      · rfl
      · exact hs
    simp only [hg, if_true]
  | _ => rfl

theorem read_eq_ok_iff_after {listing : String} {program : Program} :
    read listing = .ok program ↔ ∃ reader, Reader.after listing.toList = .ok reader ∧
      undefined? reader.program = none ∧ reader.program = program := by
  rw [read, ← Reader.after]
  cases Reader.after listing.toList with
  | error e => simp [bind, Except.bind]
  | ok reader =>
    cases hu : undefined? reader.program <;> simp [bind, Except.bind, pure, Except.pure, hu]

/-- An escaped text is defined under its key, whatever it holds and whatever stands around it, and
each entry that is accepted can be written so. -/
theorem data_entries_round_trip (hb : Text.Begins front) (hf : Reader.after front = .ok reader)
    (hp : reader.part = .data) :
    (∀ line key text, WritesEntry line key text →
      ∃ next, reader.Defines key text next ∧ Reader.Takes front line next ∧
        (read (String.ofList front) = .ok reader.program →
          read (String.ofList (front ++ line)) = .ok next.program)) ∧
    ∀ line next, '\n' ∉ line → content line ≠ [] → header? (content line) = none →
      Reader.after (front ++ line) = .ok next →
        ∃ key text, IsEntry (content line) key text ∧ reader.Defines key text next ∧
          WritesEntry (entryLine key text) key text ∧
          Reader.Takes front (entryLine key text) next := by
  have hw : ∀ {line key text}, WritesEntry line key text →
      Reader.Takes front line { reader with program := reader.program.addData key text } := by
    intro line key text h
    have hn : line ≠ [] := by
      rintro rfl
      exact h.isEntry.header?.1 rfl
    exact Reader.takes_of_readLine hb hf h.newline_notMem hn (readLine_of_isEntry hp h.isEntry)
  constructor
  · intro line key text h
    refine ⟨_, reader.defines_addData key text, hw h, fun hr => ?_⟩
    obtain ⟨last, -, hu, hr⟩ := read_eq_ok_iff_after.1 hr
    rw [hr] at hu
    rw [read_eq_ok_iff_after, String.toList_ofList]
    exact ⟨_, (hw h).1, undefined?_addData hu key text, rfl⟩
  · intro line next hl hc hh h
    have hn : line ≠ [] := by
      rintro rfl
      exact hc rfl
    obtain ⟨key, text, he, rfl⟩ :=
      isEntry_of_readLine hp hc hh (Reader.readLine_of_after hb hf hl hn h)
    have hs := writesEntry_entryLine he.isKey text
    exact ⟨key, text, he, reader.defines_addData key text, hs, hw hs⟩

theorem data_entries_round_trip_quoted :
    let front := ".data\ns0: \"\\a\"\n".toList
    let reader : Reader := ⟨.data, Program.empty.addData "s0" "a"⟩
    let line := "\tk_1\x0b :\r \" ;\\\"\r\\\\\";\"".toList
    Text.Begins front ∧ Reader.after front = .ok reader ∧ WritesEntry line "k_1" " ;\"\r\\" ∧
      (∃ next, reader.Defines "k_1" " ;\"\r\\" next ∧ Reader.Takes front line next ∧
        read (String.ofList (front ++ line)) = .ok next.program) ∧
      ∃ key text, IsEntry (content "s1 :\"\\a\\;\"".toList) key text ∧
        ∃ next, reader.Defines key text next ∧ Reader.Takes front (entryLine key text) next := by
  intro front reader line
  have hb : Text.Begins front := by
    rintro _ ⟨⟩
    rfl
  have hf : Reader.after front = .ok reader := by decide +kernel
  have hleft : IsMargin ['\t'] := by decide +kernel
  have hbefore : IsMargin ['\x0b', ' '] := by decide +kernel
  have hafter : IsMargin ['\r', ' '] := by decide +kernel
  have hw : WritesEntry line "k_1" " ;\"\r\\" := by
    have hk : IsKey "k_1" := by decide +kernel
    have hc : Text.IsComment [';', '"'] := .inr ⟨_, rfl, by decide⟩
    have h : WritesEntry _ "k_1" " ;\"\r\\" :=
      .intro hk hleft hbefore hafter isMargin_nil hc
    convert h using 1
    decide +kernel
  obtain ⟨h, hl⟩ := data_entries_round_trip hb hf rfl
  let next : Reader := ⟨.data, reader.program.addData "s1" "a;"⟩
  have hn : Reader.after (front ++ "s1 :\"\\a\\;\"".toList) = .ok next := by decide +kernel
  obtain ⟨key, text, he, hd, -, ht⟩ :=
    hl _ next (by decide) (by decide +kernel) (by decide +kernel) hn
  obtain ⟨last, hl, hs, hr⟩ := h line _ _ hw
  exact ⟨hb, hf, hw, ⟨last, hl, hs, hr (by decide +kernel)⟩, key, text, he, next, hd, ht⟩

end Entries

end Octet.Assembly
