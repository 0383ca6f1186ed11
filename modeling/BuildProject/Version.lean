/-!
# The version of the library
-/

namespace BuildProject

/-- The version that the library reports. -/
def version : String := "0.1.0"

end BuildProject
