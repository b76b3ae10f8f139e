/-!
# Colours

Parts of a message that matter are painted for the terminal.
-/

namespace ProjectLint

def red (text : String) : String := "\x1b[91m" ++ text ++ "\x1b[0m"

def yellow (text : String) : String := "\x1b[93m" ++ text ++ "\x1b[0m"

end ProjectLint
