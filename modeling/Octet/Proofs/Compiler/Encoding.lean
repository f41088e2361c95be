import Octet.Proofs.Compiler.Inventory
import Octet.Proofs.Compiler.Labels
import Mathlib.Data.List.Induction

namespace Octet

namespace Compiler

theorem foldl_addText (loads : List String) : loads.foldl addText [] = loads.eraseDups := by
  induction loads using List.reverseRecOn with
  | nil => rfl
  | append_singleton loads text ih =>
    rw [List.foldl_append, ih, List.eraseDups_append, List.foldl_cons, List.foldl_nil, addText]
    by_cases ht : text ∈ loads
    · simp [ht, List.mem_eraseDups, List.removeAll]
    · simp [ht, List.mem_eraseDups, List.removeAll, List.eraseDups_cons]

theorem nodup_addText {texts : List String} (h : texts.Nodup) (text : String) :
    (addText texts text).Nodup := by
  rw [addText]
  split
  · exact h
  · next ht => exact List.nodup_append.2 ⟨h, by simp, by rintro a ha b hb rfl; simp_all⟩

theorem nodup_foldl_addText (loads : List String) {texts : List String} (h : texts.Nodup) :
    (loads.foldl addText texts).Nodup := by
  induction loads generalizing texts with
  | nil => exact h
  | cons text loads ih => exact ih (nodup_addText h text)

end Compiler

/-- What a program that has been read shares with the listing that it was read from, for code that
loads these texts. -/
structure Program.Encodes (program : Program) (listing : Listing) (loads : List String) : Prop where
  /-- The instructions are those of the listing, in order. -/
  instructions : program.instructions.toList.map Located.val =
    Listing.instructions listing.code
  /-- The labels that have a place are those that were taken, each once. -/
  defined : (Listing.defined listing.code).Perm (List.range listing.labels)
  /-- A label leads to the instruction behind its place. -/
  target : ∀ n before after, listing.code = before ++ .label n :: after →
    program.labels.get? (Listing.labelName n) = some (Listing.size before)
  labels : ∀ name target, program.labels.get? name = some target →
    ∃ n < listing.labels, name = Listing.labelName n
  jumps : ∀ i ∈ Listing.instructions listing.code, Compiler.isJump i.opcode = true →
    ∃ n < listing.labels, i.operands = [.label (Listing.labelName n)]
  data : ∀ n, program.data.get? (Listing.dataKey n) = listing.texts[n]?
  keys : ∀ key text, program.data.get? key = some text →
    ∃ n < listing.texts.length, key = Listing.dataKey n
  distinct : listing.texts.Nodup
  /-- Texts are counted in the order in which they are first loaded. -/
  texts : listing.texts = loads.eraseDups
  /-- Each load finds the text that it was written for. -/
  loads : List.Forall₂ (fun key text => program.data.get? key = some text)
    ((Listing.instructions listing.code).filterMap Compiler.key?) loads
  /-- Only a load names a key. -/
  onlyLoads : ∀ i ∈ Listing.instructions listing.code, ∀ key, .data key ∈ i.operands →
    Compiler.key? i = some key

namespace Block

open Compiler

variable (program : Block)

theorem emits_compile :
    Emits (block program) ⟨0, []⟩ program.compile.code
      ⟨program.compile.labels, program.compile.texts⟩ :=
  rfl

theorem accounts_compile :
    Accounts ⟨0, []⟩ program.compile.code program.loads
      ⟨program.compile.labels, program.compile.texts⟩ :=
  accounts_block program.emits_compile

theorem perm_defined_compile :
    (Listing.defined program.compile.code).Perm (List.range program.compile.labels) := by
  rw [List.perm_iff_count]
  intro n
  rw [(places_block program.emits_compile).count, within]
  by_cases hn : n < program.compile.labels
  · rw [if_pos ⟨n.zero_le, hn⟩, List.count_eq_one_of_mem List.nodup_range (List.mem_range.2 hn)]
  · rw [if_neg fun h => hn h.2, List.count_eq_zero_of_not_mem fun h => hn (List.mem_range.1 h)]

theorem nodup_defined_compile : (Listing.defined program.compile.code).Nodup :=
  program.perm_defined_compile.nodup_iff.2 List.nodup_range

theorem texts_compile : program.compile.texts = program.loads.foldl addText [] :=
  program.accounts_compile.texts

theorem legible_compile : program.compile.Legible where
  lines := program.accounts_compile.legible
  keys i hi key hk := by
    have hm : key ∈ (Listing.instructions program.compile.code).filterMap key? :=
      List.mem_filterMap.2 ⟨i, hi, (program.accounts_compile.fits i hi).keys key hk⟩
    have hp := program.accounts_compile.keys.imp fun key text ⟨n, hk, ht⟩ =>
      (⟨⟨n, (List.getElem?_eq_some_iff.1 ht).1, hk⟩, trivial⟩ :
        (∃ n < program.compile.texts.length, key = Listing.dataKey n) ∧ True)
    exact ((List.forall₂_and_left _ _).1 hp).1 key hm

theorem encodes_compile (name : Option String) :
    (program.compile.assembled name).Encodes program.compile program.loads where
  instructions := Listing.instructions_assembled ..
  defined := program.perm_defined_compile
  target n before after h := by
    have hp := Listing.placed_assembled program.compile name program.nodup_defined_compile
    rw [h, Listing.placed_append, Listing.Placed, Nat.zero_add] at hp
    exact hp.2.1
  labels label target h := by
    obtain ⟨n, hn, rfl⟩ := Listing.exists_of_get?_labels_assembled program.compile name h
    exact ⟨n, List.mem_range.1 (program.perm_defined_compile.mem_iff.1 hn), rfl⟩
  jumps i hi hj := (program.accounts_compile.fits i hi).jumps hj
  data n := Listing.get?_data_assembled ..
  keys key text h := Listing.exists_of_get?_data_assembled _ _ h
  distinct := program.texts_compile ▸ nodup_foldl_addText _ List.nodup_nil
  texts := by rw [program.texts_compile, foldl_addText]
  loads := by
    refine program.accounts_compile.keys.imp ?_
    rintro key text ⟨n, rfl, ht⟩
    rw [Listing.get?_data_assembled]
    exact ht
  onlyLoads i hi := (program.accounts_compile.fits i hi).keys

/-- What the compiler writes is read back as the program that it meant, whatever the texts, the
comments and the name of the source hold. -/
theorem read_render_compile (name : Option String) (hn : ∀ text ∈ name, '\n' ∉ text.toList) :
    ∃ read, Assembly.read (program.compile.render name) = .ok read ∧
      read.Encodes program.compile program.loads :=
  ⟨_, Assembly.read_render program.legible_compile hn, program.encodes_compile name⟩

/-- A text of the marks that a listing itself is made of. -/
theorem read_render_compile_marks : ∃ read, Assembly.read
    ((Block.output 2 (.text "\"; .code\\\r\n\u2028") .done).compile.render (some "a;\".welt")) =
      .ok read ∧
    read.Encodes (Block.output 2 (.text "\"; .code\\\r\n\u2028") .done).compile
      ["\"; .code\\\r\n\u2028"] :=
  read_render_compile _ (some "a;\".welt") (by decide)

end Block

end Octet
