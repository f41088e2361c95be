namespace Octet

/-- How often the body of a loop may be begun while the loop runs. -/
def loopLimit : Nat := 1818

/-- How many instructions the machine may execute in a whole run. -/
def stepLimit : Nat := 8 * loopLimit

/-- What is shown of a program that ends without a halt. -/
def endNotice : String := "Programm endete ohne Verneinung."

end Octet
