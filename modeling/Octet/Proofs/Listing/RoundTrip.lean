import Octet.Proofs.Listing.Placed

namespace Octet

namespace Listing

/-- The lines of a listing behind its heading. -/
def bodyTexts (listing : Listing) : List String :=
  (if listing.texts.isEmpty then [] else [".data"] ++ entryTexts 0 listing.texts ++ [""]) ++
    ([".code"] ++ listing.code.map Line.text)

theorem lineTexts_eq (listing : Listing) (name : Option String) :
    listing.lineTexts name = heading name ++ listing.bodyTexts := by
  rw [lineTexts, bodyTexts, List.append_assoc, List.append_assoc]

/-- Each line of the code is read as it was meant, and each key that it names has a text. -/
structure Legible (listing : Listing) : Prop where
  lines : ∀ line ∈ listing.code, line.Legible
  keys : ∀ i ∈ Listing.instructions listing.code, ∀ key, .data key ∈ i.operands →
    ∃ n < listing.texts.length, key = dataKey n

theorem newline_notMem_of_isMark {s : List Char} (h : ∀ c ∈ s, Assembly.isMark c = true) :
    '\n' ∉ s :=
  fun hn => absurd (h '\n' hn) (by decide)

theorem newline_notMem_text {line : Line} (h : line.Legible) : '\n' ∉ line.text.toList := by
  cases line with
  | label n =>
    have hn := newline_notMem_of_isMark fun c => Assembly.isMark_of_mem_labelName (n := n) (c := c)
    simp [Line.text, hn]
  | instruction i comment =>
    have hn : '\n' ∉ (instructionText i).toList := fun hm =>
      absurd (Instruction.mem_text h.1 hm) (by decide)
    cases comment with
    | none => simp [Line.text, hn]
    | some text => simp [Line.text, Text.padRight, List.rightpad, hn, h.2 text rfl]

theorem newline_notMem_entryText (n : Nat) (text : String) :
    '\n' ∉ (entryText n text).toList := by
  have hk := newline_notMem_of_isMark fun c => Assembly.isMark_of_mem_dataKey (n := n) (c := c)
  simp [entryText, hk, Text.newline_notMem_escape]

theorem newline_notMem_entryTexts (n : Nat) (texts : List String) :
    ∀ line ∈ entryTexts n texts, '\n' ∉ line.toList := by
  induction texts generalizing n with
  | nil => simp [entryTexts]
  | cons text texts ih =>
    intro line hl
    obtain rfl | hl := List.mem_cons.1 hl
    · exact newline_notMem_entryText n text
    · exact ih (n + 1) line hl

theorem newline_notMem_heading {name : Option String} (h : ∀ text ∈ name, '\n' ∉ text.toList) :
    ∀ line ∈ heading name, '\n' ∉ line.toList := by
  intro line hl
  cases name with
  | none =>
    have hh : ∀ line ∈ heading none, '\n' ∉ line.toList := by decide
    exact hh line hl
  | some text =>
    simp only [heading, List.cons_append, List.nil_append, List.mem_cons, List.not_mem_nil,
      or_false] at hl
    obtain rfl | rfl | rfl | rfl := hl
    · decide
    · simpa using h text rfl
    · decide
    · decide

variable {listing : Listing} {name : Option String}

theorem newline_notMem_lineTexts (h : listing.Legible) (hn : ∀ text ∈ name, '\n' ∉ text.toList) :
    ∀ line ∈ listing.lineTexts name, '\n' ∉ line.toList := by
  intro line hl
  simp only [lineTexts, List.mem_append, List.mem_singleton, List.mem_map] at hl
  obtain ((hl | hl) | rfl) | ⟨line, hl, rfl⟩ := hl
  · exact newline_notMem_heading hn line hl
  · split at hl
    · cases hl
    · simp only [List.mem_append, List.mem_singleton] at hl
      obtain (rfl | hl) | rfl := hl
      · decide
      · exact newline_notMem_entryTexts 0 listing.texts line hl
      · decide
  · decide
  · exact newline_notMem_text (h.lines line hl)

theorem toList_render (listing : Listing) (name : Option String) : (listing.render name).toList =
    ((listing.lineTexts name).map String.toList).flatMap (· ++ ['\n']) := by
  simp [render, List.flatMap_map]

theorem lines_render (h : listing.Legible) (hn : ∀ text ∈ name, '\n' ∉ text.toList) :
    Text.lines (listing.render name).toList =
      ((listing.lineTexts name).map String.toList).map Text.chomp := by
  rw [toList_render, Text.lines_flatMap]
  intro l hl
  obtain ⟨line, hm, rfl⟩ := List.mem_map.1 hl
  exact newline_notMem_lineTexts h hn line hm

end Listing

namespace Assembly

theorem Reader.readLines_map_chomp (reader : Reader) (number : Nat) (lines : List (List Char)) :
    reader.readLines number (lines.map Text.chomp) = reader.readLines number lines := by
  induction lines generalizing reader number with
  | nil => rfl
  | cons line lines ih =>
    have hc : Text.trim (uncommented (Text.chomp line)) = Text.trim (uncommented line) :=
      content_chomp line
    simp only [List.map_cons, readLines, hc, ih]

variable {listing : Listing} {name : Option String}

theorem content_heading (name : Option String) :
    ∀ line ∈ (Listing.heading name).map String.toList, content line = [] := by
  intro line hm
  obtain ⟨text, hl, rfl⟩ := List.mem_map.1 hm
  cases name with
  | none =>
    have hh : ∀ text ∈ Listing.heading none, content text.toList = [] := by decide
    exact hh text hl
  | some source =>
    simp only [Listing.heading, List.cons_append, List.nil_append, List.mem_cons,
      List.not_mem_nil, or_false] at hl
    obtain rfl | rfl | rfl | rfl := hl
    · decide
    · have hs : ("; source: " ++ source).toList = ';' :: (" source: ".toList ++ source.toList) := by
        simp
      rw [hs, content_comment]
    · decide
    · rfl

theorem Reader.readLine_data (reader : Reader) (number : Nat) :
    reader.readLine number (content ".data".toList) = .ok { reader with part := .data } := rfl

theorem Reader.readLine_codeHeader (reader : Reader) (number : Nat) :
    reader.readLine number (content ".code".toList) = .ok { reader with part := .code } := rfl

theorem Reader.readLine_nil (reader : Reader) (number : Nat) :
    reader.readLine number (content []) = .ok reader := rfl

/-- Whatever has been read before it, a legible listing adds its texts and its code. -/
theorem readLines_bodyTexts (h : ∀ line ∈ listing.code, line.Legible) (reader : Reader)
    (name : Option String) (extra : Nat) :
    reader.readLines ((Listing.heading name).length + 1 + extra)
        (listing.bodyTexts.map String.toList) =
      .ok ⟨.code, (reader.program.addTexts 0 listing.texts).addLines
        (listing.firstLine name + extra) listing.code⟩ := by
  by_cases ht : listing.texts = []
  · have hl : listing.bodyTexts.map String.toList =
        ".code".toList :: listing.code.map fun line => line.text.toList := by
      simp [Listing.bodyTexts, ht, Function.comp_def]
    have hn : listing.firstLine name + extra =
        (Listing.heading name).length + 1 + extra + 1 := by
      simp [Listing.firstLine, ht]
      omega
    rw [hl, Reader.readLines_cons (Reader.readLine_codeHeader _ _), Reader.readLines_code rfl h, hn,
      ht]
    rfl
  · have hl : listing.bodyTexts.map String.toList = ".data".toList ::
        ((Listing.entryTexts 0 listing.texts).map String.toList ++ [] :: ".code".toList ::
          listing.code.map fun line => line.text.toList) := by
      simp [Listing.bodyTexts, ht, Function.comp_def]
    have hn : listing.firstLine name + extra =
        (Listing.heading name).length + 1 + extra + 1 + listing.texts.length + 1 + 1 := by
      simp [Listing.firstLine, ht]
      omega
    rw [hl, Reader.readLines_cons (Reader.readLine_data _ _), Reader.readLines_entryTexts rfl,
      Reader.readLines_cons (Reader.readLine_nil _ _),
      Reader.readLines_cons (Reader.readLine_codeHeader _ _), Reader.readLines_code rfl h, hn]

/-- The reader comes through a listing to its program. -/
theorem readLines_lineTexts (h : ∀ line ∈ listing.code, line.Legible) :
    Reader.initial.readLines 1 ((listing.lineTexts name).map String.toList) =
      .ok ⟨.code, listing.assembled name⟩ := by
  have hb := readLines_bodyTexts h .initial name 0
  rw [Listing.lineTexts_eq, List.map_append,
    Reader.readLines_append_of_content_eq_nil (content_heading name), List.length_map,
    Nat.add_comm 1]
  exact hb

theorem undefined?_assembled (h : listing.Legible) :
    undefined? (listing.assembled name) = none := by
  rw [undefined?, List.findSome?_eq_none_iff]
  intro i hi
  rw [List.findSome?_eq_none_iff]
  intro o ho
  cases o with
  | data key =>
    have hm : i.val ∈ Listing.instructions listing.code := by
      rw [← Listing.instructions_assembled listing name]
      exact List.mem_map_of_mem hi
    obtain ⟨n, hn, rfl⟩ := h.keys i.val hm key ho
    simp [Listing.get?_data_assembled, hn]
  | _ => rfl

/-- Reading undoes writing, whatever the texts and the comments hold. -/
theorem read_render (h : listing.Legible) (hn : ∀ text ∈ name, '\n' ∉ text.toList) :
    read (listing.render name) = .ok (listing.assembled name) := by
  simp only [read, Listing.lines_render h hn, Reader.readLines_map_chomp,
    readLines_lineTexts h.lines]
  simp [bind, Except.bind, undefined?_assembled h, pure, Except.pure]

end Assembly

end Octet
