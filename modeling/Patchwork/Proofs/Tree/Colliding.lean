import Patchwork.Proofs.Text.ByteOrder
import Patchwork.Proofs.Tree.Failing
import Patchwork.Proofs.Tree.Rediffing

/-!
# When two patches would have one name

The name of a patch tells the directory of its file and the file's stem, and nothing else.  So two patches would have
one name just if their files lie in one directory and differ in their extensions alone.  The files are taken in the
order of their bytes, so that the first one whose name is taken is found with the one that has it.
-/
namespace Patchwork

open Text.Utf8 (encode)

variable {name stem ext n m : Text} {d e : Place}

/-! ### Stems -/

namespace Tree

open Volume

variable {v w : Volume} {b p mp : Place} {c : Config} {baseline modified patchDir f g first second : Text}
  {fs seen : List Text} {fault : Fault}

/-! ### The first clash -/

end Tree

end Patchwork
