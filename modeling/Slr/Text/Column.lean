/-! Fixed columns: a text padded with spaces to a width counted in code points. A longer text stays. -/

namespace Slr.Text

def spaces (n : Nat) : String := String.ofList (List.replicate n ' ')

def padEnd (width : Nat) (s : String) : String := s ++ spaces (width - s.length)

def padStart (width : Nat) (s : String) : String := spaces (width - s.length) ++ s

end Slr.Text
