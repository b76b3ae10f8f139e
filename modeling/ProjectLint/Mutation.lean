import ProjectLint.Text.Blank

/-!
# Lines that mutation testing leaves alone

A mutation of a text that is only shown to people, or of how an option is declared, is no fault that
a test should find.
-/

namespace ProjectLint.Mutation

def beginnings : List String := [
  "if __name__ ==", "help=", "metavar=", "print", "\"", "f\"", "default=", "nargs=", "required=",
  "@dataclass"]

/-- Does mutation testing skip a line? Blanks around it do not count. -/
def skips (line : String) : Bool :=
  let start := Text.trimList line.toList
  beginnings.any fun b => b.toList.isPrefixOf start

end ProjectLint.Mutation
