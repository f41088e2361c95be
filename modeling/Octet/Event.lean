namespace Octet

/-- What a host may be told about beside the outputs. -/
inductive Event
  | restless
  | suffering
  | ringOverflow (pointer : Nat)
  | ringSpin
  | ringCycle
deriving DecidableEq

def Event.display : Event → String
  | restless => "Restless"
  | suffering => "Suffering"
  | ringOverflow pointer => "RingOverflow \x7b pointer: " ++ pointer.repr ++ " \x7d"
  | ringSpin => "RingSpin"
  | ringCycle => "RingCycle"

end Octet
