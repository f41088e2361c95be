import Octet.Proofs.Flags.Ripple
import Octet.Proofs.Machine.Calls
import Octet.Proofs.Walker.Evaluations

namespace Octet

/-- Through the carry, additions of bytes add numbers of any length, written from the lowest byte:
where the pairs of their bytes are added, and whatever else is done that is no arithmetic, the
bytes and the last carry are the sum. So it is for the flags alone, for steps of the machine and
for a block of the language. -/
theorem isSum_of_additions (l r : List UInt8) (hl : l.length = r.length) :
    (∀ (acts : List Act) (flags : Flags), flags.carry = false → acts.filterMap Act.pair? = l.zip r →
      ∃ values after, Act.perform acts flags = .ok (values, after) ∧
        IsSum l r (values.filterMap Value.byte?) after.carry) ∧
    (∀ (program : Program) (n pc target : Nat) (state next : Machine.State)
      (signals : List Signal), Machine.Steps program n pc state signals target next →
      state.flags.carry = false →
      let calls := Machine.callsFrom program n pc state
      List.Forall₂ Call.Adds calls (l.zip r) →
      IsSum l r (calls.filterMap Call.byte?) next.flags.carry) ∧
    ∀ (b : Block) (state next : Walker.State) (flow : Walker.Flow),
      (Walker.exec b state).result = .ok (flow, next) → state.flags.carry = false →
      let calls := Walker.calls (Walker.evaluations b state)
      List.Forall₂ Call.Adds calls (l.zip r) →
      IsSum l r (calls.filterMap Call.byte?) next.flags.carry := by
  have hchained {carry last : Bool} {calls : List Call} (h : Chained carry calls last)
      (hc : carry = false) (hp : List.Forall₂ Call.Adds calls (l.zip r)) :
      IsSum l r (calls.filterMap Call.byte?) last := by
    rw [hc] at h
    exact (h.ripple hp).isSum hl
  refine ⟨fun acts flags hc hp => ?_, ?_, ?_⟩
  · obtain ⟨values, after, hv, hr⟩ := Act.ripple_perform acts flags
    rw [hc, hp] at hr
    exact ⟨values, after, hv, hr.isSum hl⟩
  · intro program n pc target state next signals h hc calls hp
    exact hchained h.chained hc hp
  · intro b state next flow h hc calls hp
    exact hchained (Walker.chains_exec b state flow next h) hc hp

/-- The pair of 255 and zero overflows by the carry that 200 and 100 leave. -/
theorem isSum_of_additions_carried :
    let l : List UInt8 := [200, 255]
    let r : List UInt8 := [100, 0]
    let acts : List Act := [.add (.number 200) (.number 100), .compare (.text "b") (.number 9),
      .add (.text "b") (.number 9), .add (.number 255) (.number 0)]
    let program : Program := ⟨#[⟨1, .kur, [.register 4, .register 0, .register 1]⟩,
      ⟨2, .pav, [.register 0, .register 1]⟩, ⟨3, .kur, [.register 5, .register 2, .register 3]⟩],
      .empty, .empty⟩
    let registers : Memory := .ofList [.number 200, .number 100, .number 255, .number 0]
    let start : Machine.State := ⟨registers, .empty, .clear, []⟩
    let block : Block := .assign 1 4 (.binary (.slot 0) (.arith .add) (.slot 1))
      (.assign 2 5 (.binary (.slot 2) (.arith .add) (.slot 3)) .done)
    (Act.perform acts .clear =
        .ok ([.number 44, .text "b9", .number 0], ⟨true, false, true⟩) ∧
      IsSum l r [44, 0] true) ∧
    (∃ signals next, Machine.Steps program 3 0 start signals 3 next ∧
      IsSum l r ((Machine.callsFrom program 3 0 start).filterMap Call.byte?) next.flags.carry) ∧
    ∃ next, (Walker.exec block ⟨registers, .clear, []⟩).result = .ok (.next, next) ∧
      IsSum l r ((Walker.calls (Walker.evaluations block ⟨registers, .clear, []⟩)).filterMap
        Call.byte?) next.flags.carry := by
  intro l r acts program registers start block
  obtain ⟨hacts, hmachine, hwalker⟩ := isSum_of_additions l r rfl
  have hperform : Act.perform acts .clear =
      .ok ([.number 44, .text "b9", .number 0], ⟨true, false, true⟩) := by decide
  refine ⟨⟨hperform, ?_⟩, ?_, ?_⟩
  · obtain ⟨values, after, hp, hs⟩ := hacts acts .clear rfl rfl
    cases hperform.symm.trans hp
    exact hs
  · have hs : Machine.Steps program 3 0 start _ 3 _ :=
      .head rfl rfl rfl (.head rfl rfl rfl (.head rfl rfl rfl .refl))
    exact ⟨_, _, hs, hmachine _ _ _ _ _ _ _ hs rfl
      (.cons ⟨rfl, rfl, rfl⟩ (.cons ⟨rfl, rfl, rfl⟩ .nil))⟩
  · exact ⟨_, rfl, hwalker _ _ _ _ rfl rfl (.cons ⟨rfl, rfl, rfl⟩ (.cons ⟨rfl, rfl, rfl⟩ .nil))⟩

end Octet
