/-!
# Command — the release

The number under which the calculator is released.
-/

namespace Abacus.Command

/-- The release number, and zeros where nothing is installed. -/
def release (installed : Bool) : String := if installed then "0.1.0" else "0.0.0"

end Abacus.Command
