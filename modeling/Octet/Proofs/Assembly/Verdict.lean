import Mathlib.Order.Lattice.Nat
import Octet.Proofs.Assembly.Format

namespace Octet.Assembly

variable {lines : List (List Char)} {program : Program} {n : Nat} {key : String}

/-- The lines of a listing without their comments and the blanks around them. -/
def contents (listing : String) : List (List Char) := (Text.lines listing.toList).map content

/-- An entry of a listing has a key. -/
def Defines (lines : List (List Char)) (key : String) : Prop :=
  ∃ n text, Says lines n (.entry key text)

/-- The first instruction of a listing that names a key without an entry, and the first such key
that it names. -/
def FirstMiss (lines : List (List Char)) (n : Nat) (key : String) : Prop :=
  (∃ i before after, Says lines n (.instruction i) ∧ i.operands = before ++ .data key :: after ∧
    ¬Defines lines key ∧ ∀ other, .data other ∈ before → Defines lines other) ∧
  ∀ m < n, ∀ i, Says lines m (.instruction i) → ∀ other, .data other ∈ i.operands →
    Defines lines other

section Undefined

/-- An operand names a key without an entry. -/
def missing? (program : Program) (line : Nat) : Operand → Option (Located AssemblyError)
  | .data key =>
    if (program.data.get? key).isSome then none else some ⟨line, .undefinedData key⟩
  | _ => none

theorem undefined?_eq (program : Program) : undefined? program =
    program.instructions.toList.findSome? fun i =>
      i.val.operands.findSome? (missing? program i.line) :=
  rfl

theorem Describes.defines_iff (h : Describes lines program) :
    Defines lines key ↔ (program.data.get? key).isSome = true := by
  rw [Option.isSome_iff_exists]
  constructor
  · rintro ⟨n, text, hn⟩
    have hne : {n | ∃ text, Says lines n (.entry key text)}.Nonempty := ⟨n, text, hn⟩
    have hb : BddAbove {n | ∃ text, Says lines n (.entry key text)} :=
      ⟨lines.length, fun m ⟨_, hm⟩ => hm.le⟩
    obtain ⟨text, ht⟩ := Nat.sSup_mem hne hb
    exact ⟨text, (h.data key text).2 ⟨_, ⟨⟨text, ht⟩, fun m hm => le_csSup hb hm⟩, ht⟩⟩
  · rintro ⟨text, ht⟩
    obtain ⟨n, -, hn⟩ := (h.data key text).1 ht
    exact ⟨n, text, hn⟩

theorem Describes.missing?_eq_none_iff (h : Describes lines program) {o : Operand} :
    missing? program n o = none ↔ ∀ key, o = .data key → Defines lines key := by
  cases o with
  | data key => simp [missing?, h.defines_iff, Option.isSome_iff_ne_none]
  | register r | immediate i | label name => simp [missing?]

theorem Describes.missing?_eq_some_iff (h : Describes lines program) {o : Operand}
    {e : Located AssemblyError} : missing? program n o = some e ↔
      ∃ key, o = .data key ∧ ¬Defines lines key ∧ ⟨n, .undefinedData key⟩ = e := by
  cases o with
  | data key => simp [missing?, h.defines_iff]
  | register r | immediate i | label name => simp [missing?]

theorem Describes.undefined?_eq_none_iff (h : Describes lines program) :
    undefined? program = none ↔
      ∀ n i, Says lines n (.instruction i) → ∀ key, .data key ∈ i.operands → Defines lines key := by
  simp only [undefined?_eq, List.findSome?_eq_none_iff, h.missing?_eq_none_iff]
  constructor
  · intro hd n i hi key hk
    exact hd ⟨n, i⟩ ((h.instruction n i).2 hi) _ hk key rfl
  · rintro hd ⟨n, i⟩ hi _ hk key rfl
    exact hd n i ((h.instruction n i).1 hi) key hk

/-- The instructions of a program before one are those on the lines before it. -/
theorem Describes.mem_before {before after : List (Located Instruction)} {i j : Located Instruction}
    (h : Describes lines program) (hl : program.instructions.toList = before ++ i :: after) :
    j ∈ before ↔ j ∈ program.instructions.toList ∧ j.line < i.line := by
  have hs := h.sorted
  rw [hl, List.map_append, List.map_cons, List.pairwise_append, List.pairwise_cons] at hs
  obtain ⟨-, ⟨hafter, -⟩, hbefore⟩ := hs
  rw [hl, List.mem_append, List.mem_cons]
  constructor
  · exact fun hj => ⟨.inl hj, hbefore _ (List.mem_map_of_mem hj) _ (List.mem_cons_self ..)⟩
  · rintro ⟨hj | rfl | hj, hlt⟩
    · exact hj
    · exact absurd hlt (Nat.lt_irrefl _)
    · exact absurd hlt (Nat.lt_asymm (hafter _ (List.mem_map_of_mem hj)))

theorem Describes.undefined?_eq_some_iff (h : Describes lines program) {e : Located AssemblyError} :
    undefined? program = some e ↔
      ∃ key, e.val = .undefinedData key ∧ FirstMiss lines e.line key := by
  simp only [undefined?_eq, List.findSome?_eq_some_iff, List.findSome?_eq_none_iff,
    h.missing?_eq_none_iff, h.missing?_eq_some_iff]
  constructor
  · rintro ⟨before, i, after, hl, ⟨known, _, rest, ho, ⟨key, rfl, hk, rfl⟩, hb⟩, hm⟩
    have hi : i ∈ program.instructions.toList := by simp [hl]
    refine ⟨key, rfl, ⟨i.val, known, rest, (h.instruction ..).1 hi, ho, hk, ?_⟩, ?_⟩
    · exact fun other hother => hb _ hother other rfl
    · intro m hlt j hj other hother
      have hmem := (h.mem_before hl).2 ⟨(h.instruction m j).2 hj, hlt⟩
      exact hm _ hmem _ hother other rfl
  · rintro ⟨key, he, ⟨i, known, rest, hs, ho, hk, hb⟩, hm⟩
    obtain ⟨before, after, hl⟩ := List.append_of_mem ((h.instruction ..).2 hs)
    obtain ⟨n, _⟩ := e
    obtain rfl : _ = AssemblyError.undefinedData key := he
    refine ⟨before, ⟨n, i⟩, after, hl, ⟨known, _, rest, ho, ⟨key, rfl, hk, rfl⟩, ?_⟩, ?_⟩
    · rintro _ hother other rfl
      exact hb other hother
    · rintro ⟨m, j⟩ hj _ hother other rfl
      obtain ⟨hmem, hlt⟩ := (h.mem_before hl).1 hj
      exact hm m hlt j ((h.instruction m j).1 hmem) other hother

end Undefined

/-- No line is wrong exactly if each line that counts stands for something. -/
theorem not_objects_iff : (∀ n e, ¬Objects lines n e) ↔
    ∀ n, OnLine lines n Counts → ∃ item, Says lines n item := by
  constructor
  · rintro hn n ⟨earlier, line, hl, hm, hc⟩
    obtain ⟨item, hf⟩ | ⟨e, ho⟩ := fits_or_offends hc.part line
    · exact ⟨item, earlier, line, hl, hm, hc, hf⟩
    · exact absurd ⟨earlier, line, hl, hm, hc, ho⟩ (hn n e)
  · rintro hf n e ⟨earlier, line, hl, hm, hc, ho⟩
    obtain ⟨item, hs⟩ := hf n ⟨earlier, line, hl, hm, hc⟩
    have ho : Objects lines n e := ⟨earlier, line, hl, hm, hc, ho⟩
    obtain ⟨_, _, hs, ho⟩ := hs.exists_and ho
    cases (readItem_of_fits hs.2).symm.trans (readItem_of_offends ho.2)

section Read

variable {listing : String} {e : AssemblyError}

theorem reads_contents (listing : String) :
    Reads (contents listing) (Reader.initial.readLines 1 (Text.lines listing.toList)) :=
  reads_readLines _

theorem not_objects_or (listing : String) : (∀ n e, ¬Objects (contents listing) n e) ∨
    ∃ n e, FirstObjection (contents listing) n e := by
  have hr := reads_contents listing
  generalize Reader.initial.readLines 1 (Text.lines listing.toList) = result at hr
  cases result with
  | error e => exact .inr ⟨e.line, e.val, hr⟩
  | ok reader => exact .inl hr.2.1

/-- If a line is wrong, the first one is what is wrong with the listing. -/
theorem read_of_firstObjection (h : FirstObjection (contents listing) n e) :
    read listing = .error ⟨n, e⟩ := by
  have hr := reads_contents listing
  rw [read]
  cases hl : Reader.initial.readLines 1 (Text.lines listing.toList) with
  | error d =>
    rw [hl] at hr
    obtain ⟨rfl, rfl⟩ := h.unique hr
    rfl
  | ok reader =>
    rw [hl] at hr
    exact absurd h.1 (hr.2.1 n e)

/-- If no line is wrong, the keys decide. -/
theorem read_of_not_objects (h : ∀ n e, ¬Objects (contents listing) n e) :
    ∃ program, Describes (contents listing) program ∧ read listing =
      match undefined? program with
      | none => .ok program
      | some e => .error e := by
  have hr := reads_contents listing
  rw [read]
  cases hl : Reader.initial.readLines 1 (Text.lines listing.toList) with
  | error d =>
    rw [hl] at hr
    exact absurd hr.1 (h d.line d.val)
  | ok reader =>
    rw [hl] at hr
    refine ⟨reader.program, hr.2.2, ?_⟩
    simp only [bind, Except.bind]
    cases undefined? reader.program <;> rfl

/-- A listing that is read is described by its lines, and all keys that it names are defined. -/
theorem describes_of_read {program : Program} (h : read listing = .ok program) :
    (∀ n e, ¬Objects (contents listing) n e) ∧ Describes (contents listing) program ∧
      undefined? program = none := by
  obtain hn | ⟨n, e, ho⟩ := not_objects_or listing
  · obtain ⟨found, hd, hr⟩ := read_of_not_objects hn
    rw [h] at hr
    split at hr
    · next hu =>
      cases hr
      exact ⟨hn, hd, hu⟩
    · cases hr
  · cases h.symm.trans (read_of_firstObjection ho)

theorem read_eq_error_iff {n : Nat} : read listing = .error ⟨n, e⟩ ↔
    FirstObjection (contents listing) n e ∨ (∀ m d, ¬Objects (contents listing) m d) ∧
      ∃ key, e = .undefinedData key ∧ FirstMiss (contents listing) n key := by
  obtain hn | ⟨m, d, ho⟩ := not_objects_or listing
  · obtain ⟨program, hd, hr⟩ := read_of_not_objects hn
    have hiff := hd.undefined?_eq_some_iff (e := ⟨n, e⟩)
    rw [hr, or_iff_right fun ho => hn n e ho.1, and_iff_right hn, ← hiff]
    cases undefined? program <;> simp
  · rw [read_of_firstObjection ho]
    constructor
    · rintro ⟨⟩
      exact .inl ho
    · rintro (h | ⟨hn, -⟩)
      · obtain ⟨rfl, rfl⟩ := ho.unique h
        rfl
      · exact absurd ho.1 (hn m d)

end Read

/-- The format of a listing. It is accepted exactly if each line that counts fits its part and each
key that an instruction names is the key of an entry, wherever that stands, and the program is then
the one that the lines describe. Otherwise the first line that is wrong is reported, whatever lines
follow it, and only if there is none the first key without an entry. -/
theorem read_listing_format (listing : String) :
    let lines := contents listing
    List.Forall₂ (fun written line => ∃ s, Uncomments written s ∧ line = Text.trim s)
      (Text.lines listing.toList) lines ∧
    ((∃ program, read listing = .ok program) ↔
      (∀ n, OnLine lines n Counts → ∃ item, Says lines n item) ∧
      ∀ n i, Says lines n (.instruction i) → ∀ key, .data key ∈ i.operands → Defines lines key) ∧
    (∀ program, read listing = .ok program → Describes lines program) ∧
    (∀ n e, read listing = .error ⟨n, e⟩ ↔ FirstObjection lines n e ∨
      (∀ m d, ¬Objects lines m d) ∧ ∃ key, e = .undefinedData key ∧ FirstMiss lines n key) ∧
    ∀ n e, FirstObjection lines n e → ∀ other, (contents other).take n = lines.take n →
      read other = .error ⟨n, e⟩ := by
  refine ⟨?_, ?_, fun program h => (describes_of_read h).2.1, fun n e => read_eq_error_iff,
    fun n e h other ht => read_of_firstObjection (h.of_take ht)⟩
  · exact List.forall₂_map_right_iff.2 (List.forall₂_same.2 fun written _ =>
      ⟨_, uncommented_eq_iff.1 rfl, rfl⟩)
  rw [← not_objects_iff]
  constructor
  · rintro ⟨program, h⟩
    obtain ⟨hn, hd, hu⟩ := describes_of_read h
    exact ⟨hn, hd.undefined?_eq_none_iff.1 hu⟩
  · rintro ⟨hn, hk⟩
    obtain ⟨program, hd, hr⟩ := read_of_not_objects hn
    rw [hd.undefined?_eq_none_iff.2 hk] at hr
    exact ⟨program, hr⟩

end Octet.Assembly
