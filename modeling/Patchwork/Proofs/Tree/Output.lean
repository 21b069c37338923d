import Patchwork.Proofs.Tree.Targets

/-!
# What a patched tree holds

The output holds the files of the baseline, and nothing else but the directories on the way to them.  A file
that no section is for is the one of the baseline, and a file that one section is for holds what it makes of
the baseline's.
-/
namespace Patchwork

namespace Tree

open Volume

variable {v w : Volume} {b o q : Place} {c : Config} {base dir path baseline patchDir output : Text}
  {content : Bytes} {ps : PatchSet} {sections : List FilePatch} {report : PatchReport}

end Tree

end Patchwork
