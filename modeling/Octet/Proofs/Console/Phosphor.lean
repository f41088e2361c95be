import Mathlib.Data.List.SplitBy
import Octet.Proofs.Console.Dialogue

namespace Octet

namespace Screen

variable {screen other : Screen} {text shown : String} {texts row : List String} {n : Nat}

/-- What a screen shows of texts that come one after the other. -/
def displayAll (screen : Screen) : List String → List String
  | [] => []
  | text :: texts => (screen.display text).1 :: (screen.display text).2.displayAll texts

def after (screen : Screen) (texts : List String) : Screen :=
  texts.foldl (fun screen text => (screen.display text).2) screen

theorem displayAll_append (screen : Screen) (texts more : List String) :
    screen.displayAll (texts ++ more) =
      screen.displayAll texts ++ (screen.after texts).displayAll more := by
  induction texts generalizing screen with
  | nil => rfl
  | cons text texts ih => exact congrArg (_ :: ·) (ih _)

/-- A text without the character at one place, which its length decides. -/
def Fades (text shown : String) : Prop :=
  ∃ before c after, text.toList = before ++ c :: after ∧
    before.length = (text.length - 1) % 5 ∧ shown.toList = before ++ after

/-- How a copy of a text is shown by its place among the copies in a row, the first of which has
place 1. -/
def Copies (place : Nat) (text shown : String) : Prop :=
  if 1 < text.length ∧ place % 2 = 0 then Fades text shown else shown = text

theorem fades_eraseIdx (h : 1 < text.length) :
    Fades text (String.ofList (text.toList.eraseIdx ((text.length - 1) % 5))) := by
  have hlt : (text.length - 1) % 5 < text.toList.length := by
    rw [String.length_toList]
    exact Nat.lt_of_le_of_lt (Nat.mod_le _ _) (Nat.sub_lt (Nat.zero_lt_of_lt h) Nat.one_pos)
  refine ⟨text.toList.take ((text.length - 1) % 5), text.toList[(text.length - 1) % 5],
    text.toList.drop ((text.length - 1) % 5 + 1), ?_, ?_, ?_⟩
  · rw [← List.drop_eq_getElem_cons hlt, List.take_append_drop]
  · exact List.length_take_of_le (Nat.le_of_lt hlt)
  · rw [String.toList_ofList, List.eraseIdx_eq_take_drop_succ]

theorem Fades.length (h : Fades text shown) : shown.length + 1 = text.length := by
  obtain ⟨before, c, after, ht, -, hs⟩ := h
  rw [← String.length_toList, ← String.length_toList, ht, hs]
  simp [Nat.add_assoc]

section Row

/-- The screen has shown a number of copies of a text in a row: behind an odd number of them it
remembers the text. -/
def Stands (screen : Screen) (text : String) (n : Nat) : Prop :=
  1 < text.length → (screen.last = text ↔ n % 2 = 1)

theorem display_of_stands (h : screen.Stands text n) : screen.display text =
    if 1 < text.length ∧ (n + 1) % 2 = 0 then
      (String.ofList (text.toList.eraseIdx ((text.length - 1) % 5)), blank)
    else (text, ⟨text⟩) := by
  have hc : (1 < text.length ∧ text = screen.last) ↔ 1 < text.length ∧ (n + 1) % 2 = 0 := by
    refine and_congr_right fun hl => ?_
    rw [eq_comm, h hl]
    omega
  rw [display]
  simp only [hc]

theorem copies_display (h : screen.Stands text n) :
    Copies (n + 1) text (screen.display text).1 := by
  rw [display_of_stands h, Copies]
  split
  · next hc => exact fades_eraseIdx hc.1
  · rfl

theorem ne_of_one_lt_length (h : 1 < text.length) : "" ≠ text := by
  rintro rfl
  exact absurd h (by decide)

theorem Stands.next (h : screen.Stands text n) : (screen.display text).2.Stands text (n + 1) := by
  intro hl
  rw [display_of_stands h]
  split
  · next hc => simp [blank, ne_of_one_lt_length hl]; omega
  · next hc => simp; omega

/-- Screens that stand alike in a row show the rest of it alike. -/
theorem displayAll_congr (hs : screen.Stands text n) (ho : other.Stands text n)
    (hr : ∀ copy ∈ row, copy = text) : screen.displayAll row = other.displayAll row := by
  induction row generalizing screen other n with
  | nil => rfl
  | cons copy row ih =>
    obtain ⟨rfl, hr⟩ := List.forall_mem_cons.1 hr
    have hd : (screen.display copy).1 = (other.display copy).1 := by
      rw [display_of_stands hs, display_of_stands ho]
    rw [displayAll, displayAll, hd, ih hs.next ho.next hr]

/-- In a row every second copy of a text of several characters has lost one of them. -/
theorem copies_displayAll (h : screen.Stands text n) (hr : ∀ copy ∈ row, copy = text) :
    List.Forall₂ (fun copy shown => Copies copy.2 copy.1 shown) (row.zipIdx (n + 1))
      (screen.displayAll row) := by
  induction row generalizing screen n with
  | nil => exact .nil
  | cons copy row ih =>
    obtain ⟨rfl, hr⟩ := List.forall_mem_cons.1 hr
    exact .cons (copies_display h) (ih h.next hr)

end Row

section Rows

theorem eq_of_mem_row (hm : row ∈ texts.splitBy (· == ·)) : ∀ s ∈ row, ∀ t ∈ row, s = t := by
  have hc : row.IsChain (· = ·) := by simpa using List.isChain_of_mem_splitBy hm
  exact (List.isChain_iff_pairwise.1 hc).forall_of_forall fun _ _ => rfl

theorem isChain_rows (texts : List String) :
    (texts.splitBy (· == ·)).IsChain fun row next => ∀ s ∈ row, ∀ t ∈ next, s ≠ t := by
  refine (List.isChain_getLast_head_splitBy _ texts).imp_of_mem_imp fun row next hr hn h => ?_
  obtain ⟨hrun, hnext, h⟩ := h
  intro s hs t ht
  rw [eq_of_mem_row hr s hs _ (List.getLast_mem hrun),
    eq_of_mem_row hn t ht _ (List.head_mem hnext)]
  exact beq_eq_false_iff_ne.1 h

theorem stands_zero_of_last (h : screen.last = "" ∨ screen.last ≠ text) :
    screen.Stands text 0 := by
  intro hl
  have hn : screen.last ≠ text := by
    obtain h | h := h
    · rw [h]
      exact ne_of_one_lt_length hl
    · exact h
  simp [hn]

theorem stands_blank (text : String) : blank.Stands text 0 := stands_zero_of_last (.inl rfl)

theorem last_display (screen : Screen) (text : String) :
    (screen.display text).2.last = "" ∨ (screen.display text).2.last = text := by
  rw [display]
  split
  · exact .inl rfl
  · exact .inr rfl

/-- Behind a row a screen holds nothing of the row that comes next. -/
theorem stands_after (screen : Screen) (hn : row ≠ []) (hr : ∀ copy ∈ row, copy ≠ text) :
    (screen.after row).Stands text 0 := by
  obtain ⟨front, last, rfl⟩ := List.eq_nil_or_concat' row |>.resolve_left hn
  rw [after, List.foldl_concat]
  refine stands_zero_of_last ((last_display _ last).imp_right fun h => ?_)
  rw [h]
  exact hr last (by simp)

/-- Rows of copies, each of another text than the one before it, are shown one by one. -/
theorem displayAll_flatten {rows : List (List String)}
    (hr : ∀ row ∈ rows, row ≠ [] ∧ ∀ s ∈ row, ∀ t ∈ row, s = t)
    (hc : rows.IsChain fun row next => ∀ s ∈ row, ∀ t ∈ next, s ≠ t)
    (hs : ∀ row ∈ rows.head?, ∀ text ∈ row, screen.Stands text 0) :
    screen.displayAll rows.flatten = rows.flatMap blank.displayAll := by
  induction rows generalizing screen with
  | nil => rfl
  | cons row rows ih =>
    obtain ⟨⟨hn, he⟩, hr⟩ := List.forall_mem_cons.1 hr
    obtain ⟨hd, hc⟩ := List.isChain_cons.1 hc
    obtain ⟨text, ht⟩ := List.exists_mem_of_ne_nil row hn
    have hrow := displayAll_congr (hs row rfl text ht) (stands_blank text) fun s h => he s h text ht
    rw [List.flatten_cons, displayAll_append, List.flatMap_cons, hrow]
    refine congrArg (_ ++ ·) (ih hr hc fun next hnext t h => ?_)
    exact stands_after screen hn fun s hm => hd next hnext s hm t h

end Rows

theorem length_display (screen : Screen) (text : String) :
    (screen.display text).1.length = text.length ∨
      (screen.display text).1.length + 1 = text.length := by
  rw [display]
  split
  · next h => exact .inr (fades_eraseIdx h.1).length
  · exact .inl rfl

theorem forall₂_length_displayAll (screen : Screen) (texts : List String) :
    List.Forall₂ (fun text shown => shown.length = text.length ∨ shown.length + 1 = text.length)
      texts (screen.displayAll texts) := by
  induction texts generalizing screen with
  | nil => exact .nil
  | cons text texts ih => exact .cons (length_display screen text) (ih _)

end Screen

/-- The text that a signal shows on the screen. -/
def Signal.displayed? : Signal → Option String
  | display text => some text
  | _ => none

/-- What the log says to the signals that show a text on the screen. -/
def Console.displays (console : Console) (signals : List Signal) : List Entry :=
  ((console.replies signals).filter fun reply => reply.1.displayed?.isSome).flatMap Prod.snd

/-- Nothing else that a console receives changes its screen. -/
theorem Console.displays_eq (console : Console) (signals : List Signal) :
    console.displays signals =
      (console.screen.displayAll (signals.filterMap Signal.displayed?)).map .output := by
  induction signals generalizing console with
  | nil => rfl
  | cons signal signals ih =>
    cases signal with
    | display text => exact congrArg (.output (console.screen.display text).1 :: ·) (ih _)
    | print text | read line | event e | note n | tick => exact ih _

namespace Screen

/-- Texts in a row that are equal are shown as if the screen were new: every second copy of a text
of several characters has lost one of them, and all other copies are whole. So each text is shown
once and loses at most one character, and the log of a program says the same of what it shows,
whatever else is logged in between. -/
theorem displayAll_by_rows (texts : List String) :
    let rows := texts.splitBy (· == ·)
    let shown := blank.displayAll texts
    (rows.flatten = texts ∧ (∀ row ∈ rows, row ≠ [] ∧ ∀ s ∈ row, ∀ t ∈ row, s = t) ∧
      rows.IsChain fun row next => ∀ s ∈ row, ∀ t ∈ next, s ≠ t) ∧
    shown = rows.flatMap blank.displayAll ∧
    (∀ row ∈ rows, List.Forall₂ (fun copy shown => Copies copy.2 copy.1 shown) (row.zipIdx 1)
      (blank.displayAll row)) ∧
    List.Forall₂ (fun text shown => shown.length = text.length ∨ shown.length + 1 = text.length)
      texts shown ∧
    ∀ signals, Console.new.displays signals =
      (blank.displayAll (signals.filterMap Signal.displayed?)).map .output := by
  intro rows shown
  have he : ∀ row ∈ rows, row ≠ [] ∧ ∀ s ∈ row, ∀ t ∈ row, s = t := fun row hm =>
    ⟨List.ne_nil_of_mem_splitBy hm, eq_of_mem_row hm⟩
  have hc := isChain_rows texts
  have hf : rows.flatten = texts := List.flatten_splitBy _ _
  refine ⟨⟨hf, he, hc⟩, ?_, fun row hm => ?_, forall₂_length_displayAll blank texts,
    Console.displays_eq .new⟩
  · have hs : blank.displayAll rows.flatten = _ :=
      displayAll_flatten he hc fun _ _ text _ => stands_blank text
    rwa [hf] at hs
  · obtain ⟨hn, he⟩ := he row hm
    obtain ⟨text, ht⟩ := List.exists_mem_of_ne_nil row hn
    exact copies_displayAll (stands_blank text) fun s hs => he s hs text ht

example : blank.displayAll ["hello", "hello", "hello", "hell", "hell", "x", "x"] =
    ["hello", "hell", "hello", "hell", "hel", "x", "x"] := by
  decide

end Screen

end Octet
