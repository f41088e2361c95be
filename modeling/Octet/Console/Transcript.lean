import Octet.Console.Odometer
import Octet.Console.Screen

namespace Octet

/-- What an engine does to the outside, before the screen and the odometer have had their say. -/
inductive Signal
  | display (text : String)
  | print (text : String)
  | read (line : Option String)
  | event (e : Event)
  | note (n : Note)
  | tick
deriving DecidableEq

structure Console where
  screen : Screen
  odometer : Odometer

namespace Console

def new : Console := ⟨.blank, .zero⟩

def receive (console : Console) : Signal → List Entry × Console
  | .display text =>
    let (shown, screen) := console.screen.display text
    ([.output shown], { console with screen })
  | .print text => ([.output text], console)
  | .read line => ([.input line], console)
  | .event e => ([.event e], console)
  | .note n => ([.note n], console)
  | .tick =>
    let (entries, odometer) := console.odometer.tick
    (entries, { console with odometer })

/-- Adds what the signals leave to a log whose newest entry comes first. -/
def receiveAll (console : Console) (signals : List Signal) (log : List Entry) : List Entry :=
  match signals with
  | [] => log.reverse
  | signal :: signals =>
    let next := console.receive signal
    next.2.receiveAll signals (next.1.reverse ++ log)

def transcript (console : Console) (signals : List Signal) : List Entry :=
  console.receiveAll signals []

@[simp] theorem transcript_nil (console : Console) : console.transcript [] = [] := rfl

theorem receiveAll_eq (console : Console) (signals : List Signal) (log : List Entry) :
    console.receiveAll signals log = log.reverse ++ console.transcript signals := by
  induction signals generalizing console log with
  | nil => simp [receiveAll]
  | cons signal signals ih =>
    rw [transcript, receiveAll, receiveAll, ih, ih]
    simp

theorem transcript_cons (console : Console) (signal : Signal) (signals : List Signal) :
    console.transcript (signal :: signals) =
      (console.receive signal).1 ++ (console.receive signal).2.transcript signals := by
  rw [transcript, receiveAll, receiveAll_eq]
  simp

end Console

/-- The log that signals leave on a console that is new. -/
def transcript (signals : List Signal) : List Entry :=
  Console.new.transcript signals

end Octet
