import ProjectLint.Value.Basic

/-!
# Sets of scalars

A set is a list of scalars without repetition, in the order in which they came.
-/

namespace ProjectLint

/-- The members of `a` that are not in `b`. -/
def minus (a b : List Scalar) : List Scalar := a.filter fun x => !b.any fun y => y.same x

def isSubset (a b : List Scalar) : Bool := a.all fun x => b.any fun y => y.same x

def union (a b : List Scalar) : List Scalar := a ++ minus b a

def textSet (texts : List String) : List Scalar := distinct (texts.map .str)

end ProjectLint
