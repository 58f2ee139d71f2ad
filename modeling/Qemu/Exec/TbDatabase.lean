import Qemu.Exec.Ram
import Qemu.Lib.Chain

/-!
# The database of translation blocks

`exec.c` keeps every translated block on a bucket of the physical hash table, on the lists of the
one or two pages that its code was read from, and with the jumps that go to it on a circular list of
its own.  The lists run through the blocks themselves, with tagged pointers: `tb | n` for the `n`-th
page or jump of a block, and `tb | 2` for the owner of a jump list, where the circle closes.

A block is known by its index in `tbs`.  Each link field of the C structure is a function of its
own, so that an update of one leaves the others alone.  The page bitmaps and the counters, which
no list depends on, are left out, and so is the block that `TARGET_HAS_PRECISE_SMC` generates after
an invalidation by the block itself: that is one more call of `tb_gen_code`.

**Main definitions:** `TbDb`, `tbPhysInvalidate`, `tbInvalidatePhysPageRange`, `tbLinkPage`,
`tbFindSlow`, `tbAddJump`, and `TbOp.run`, which puts them behind one interface.
-/

namespace Qemu.Exec

open Chain (Lost)

/-- A pointer to a block with a tag: the `n`-th page, or the `n`-th jump, of the block. -/
abbrev Part := ℕ × Fin 2

/-- A pointer in a circular list of jumps: `tb | n`, or `tb | 2` at its owner. -/
inductive JmpPtr where
  | next (e : Part)
  | first (tb : ℕ)
  deriving DecidableEq, Repr

/-- What a block was translated from.  `page_addr` is −1, here `none`, for a page it lacks. -/
structure Tb where
  pc : ℕ
  csBase : ℕ
  flags : ℕ
  size : ℕ
  pageAddr : Fin 2 → Option ℕ

/-- The blocks and the lists that they are on. -/
structure TbDb where
  tbs : ℕ → Tb
  nbTbs : ℕ
  physHash : ℕ → Option ℕ
  physHashNext : ℕ → Option ℕ
  firstTb : ℕ → Option Part
  pageNext : Part → Option Part
  jmpFirst : ℕ → JmpPtr
  jmpNext : Part → Option JmpPtr
  /-- The block that the generated code of a jump goes to; `none` if it returns to the main loop. -/
  jump : Part → Option ℕ
  /-- `tb_jmp_cache` of each CPU. -/
  jmpCache : ℕ → ℕ → Option ℕ

/-- `tb_phys_hash_func`. -/
def tbPhysHashFunc (pc : ℕ) : ℕ := (pc >>> 2) &&& (2 ^ 15 - 1)

/-- `tb_jmp_cache_hash_func`. -/
def tbJmpCacheHashFunc (t : Target) (pc : ℕ) : ℕ :=
  let tmp := pc ^^^ (pc >>> (t.pageBits - 6))
  ((tmp >>> (t.pageBits - 6)) &&& (2 ^ 12 - 2 ^ 6)) ||| (tmp &&& (2 ^ 6 - 1))

/-- The physical address of a block's first byte. -/
def Tb.physPc (t : Target) (b : Tb) : ℕ := (b.pageAddr 0).getD 0 + b.pc % t.pageSize

/-- `tb_start` and `tb_end` of the part of a block in its `n`-th page. -/
def Tb.extent (t : Target) (b : Tb) (n : Fin 2) : ℕ × ℕ :=
  -- the first part may end after the page
  if n = 0 then (b.physPc t, b.physPc t + b.size)
  else ((b.pageAddr 1).getD 0, (b.pageAddr 1).getD 0 + (b.pc + b.size) % t.pageSize)

namespace TbDb

variable (t : Target) (s : TbDb)

/-- No list has more elements than there are parts of blocks. -/
def fuel : ℕ := 2 * s.nbTbs + 2

/-! ## Removal -/

/-- `tb_remove`, from a bucket of the hash table. -/
def tbRemove (h b : ℕ) : Except Lost TbDb :=
  (Chain.remove s.physHash s.physHashNext h (· == b) s.fuel).map fun (_, heads, next) =>
    { s with physHash := heads, physHashNext := next }

/-- `tb_page_remove`: the first entry of the block, whatever its tag. -/
def tbPageRemove (page b : ℕ) : Except Lost TbDb :=
  (Chain.remove s.firstTb s.pageNext page (fun e => e.1 == b) s.fuel).map fun (_, heads, next) =>
    { s with firstTb := heads, pageNext := next }

/-- What the fields of the jump lists point to. -/
def jmpPlace : Option JmpPtr → Option JmpPtr
  | none => none
  | some (.next e) => s.jmpNext e
  | some (.first b) => some (s.jmpFirst b)

/-- Write to one of the fields of the jump lists. -/
def setJmpPlace : Option JmpPtr → JmpPtr → TbDb
  | none, _ => s
  | some (.next e), v => { s with jmpNext := Function.update s.jmpNext e (some v) }
  | some (.first b), v => { s with jmpFirst := Function.update s.jmpFirst b v }

/-- `tb_jmp_remove`: take a chained jump out of the circular list that it is on. -/
def tbJmpRemove (e : Part) : Except Lost TbDb :=
  match s.jmpNext e with
  | none => .ok s
  | some v =>
    (Chain.locate s.jmpPlace (· == .next e) s.fuel (some (.next e))).map fun (i, _) =>
      let s' := s.setJmpPlace i v
      { s' with jmpNext := Function.update s'.jmpNext e none }

/-- `tb_reset_jump`, and the end of the jump's time on a list. -/
def unchain (e : Part) : TbDb :=
  { s with jump := Function.update s.jump e none, jmpNext := Function.update s.jmpNext e none }

end TbDb

/-- The loop of `tb_phys_invalidate` over the jumps to the block that goes. -/
def resetJumps : ℕ → TbDb → JmpPtr → Except Lost TbDb
  | 0, _, _ => .error .fuel
  | _ + 1, s, .first _ => .ok s
  | fuel + 1, s, .next e =>
    match s.jmpNext e with
    | none => .error .null
    | some v => resetJumps fuel (s.unchain e) v

namespace TbDb

variable (t : Target) (s : TbDb)

/-- Take a block off the list of its `n`-th page, unless that is the page `pageAddr`. -/
def leavePage (e : Part) (pageAddr : Option ℕ) : Except Lost TbDb :=
  match (s.tbs e.1).pageAddr e.2 with
  | none => .ok s
  | some a => if some a = pageAddr then .ok s else s.tbPageRemove (a / t.pageSize) e.1

/-- Take a block out of the jump caches of all CPUs. -/
def uncache (b : ℕ) : TbDb :=
  { s with
    jmpCache := fun cpu h =>
      if h = tbJmpCacheHashFunc t (s.tbs b).pc ∧ s.jmpCache cpu h = some b then none
      else s.jmpCache cpu h }

/-- `tb_phys_invalidate`. -/
def tbPhysInvalidate (b : ℕ) (pageAddr : Option ℕ) : Except Lost TbDb := do
  let s ← s.tbRemove (tbPhysHashFunc ((s.tbs b).physPc t)) b
  let s ← s.leavePage t (b, 0) pageAddr
  let s ← s.leavePage t (b, 1) pageAddr
  let s := s.uncache t b
  let s ← s.tbJmpRemove (b, 0)
  let s ← s.tbJmpRemove (b, 1)
  let s ← resetJumps s.fuel s (s.jmpFirst b)
  .ok { s with jmpFirst := Function.update s.jmpFirst b (.first b) }

/-- A part of a block is hit by the range, by the test of `tb_invalidate_phys_page_range`. -/
def hits (start stop : ℕ) (e : Part) : Bool :=
  let (tbStart, tbEnd) := (s.tbs e.1).extent t e.2
  !(decide (tbEnd ≤ start) || decide (tbStart ≥ stop))

end TbDb

/-- The loop of `tb_invalidate_phys_page_range`.  The next element is read before the block goes. -/
def invalidateLoop (t : Target) (start stop : ℕ) : ℕ → TbDb → Option Part → Except Lost TbDb
  | 0, _, _ => .error .fuel
  | _ + 1, s, none => .ok s
  | fuel + 1, s, some e =>
    if s.hits t start stop e then
      match s.tbPhysInvalidate t e.1 none with
      | .error l => .error l
      | .ok s' => invalidateLoop t start stop fuel s' (s.pageNext e)
    else invalidateLoop t start stop fuel s (s.pageNext e)

namespace TbDb

variable (t : Target) (s : TbDb)

/-- `tb_invalidate_phys_page_range`. -/
def tbInvalidatePhysPageRange (start stop : ℕ) : Except Lost TbDb :=
  invalidateLoop t start stop s.fuel s (s.firstTb (start / t.pageSize))

/-! ## Entering blocks and jumps -/

/-- `tb_alloc_page`. -/
def tbAllocPage (e : Part) (pageAddr : ℕ) : TbDb :=
  let tb := s.tbs e.1
  let (heads, next) := Chain.push s.firstTb s.pageNext (pageAddr / t.pageSize) e
  { s with
    tbs := Function.update s.tbs e.1 { tb with
      pageAddr := Function.update tb.pageAddr e.2 (some pageAddr) }
    firstTb := heads
    pageNext := next }

/-- The second page of `tb_link_page`. -/
def linkSecond (b : ℕ) (physPage2 : Option ℕ) : TbDb :=
  match physPage2 with
  | some a => s.tbAllocPage t (b, 1) a
  | none =>
    let tb := s.tbs b
    { s with
      tbs := Function.update s.tbs b { tb with pageAddr := Function.update tb.pageAddr 1 none } }

/-- `tb_link_page`. -/
def tbLinkPage (b physPc : ℕ) (physPage2 : Option ℕ) : TbDb :=
  let (heads, next) := Chain.push s.physHash s.physHashNext (tbPhysHashFunc physPc) b
  let s := { s with physHash := heads, physHashNext := next }
  let s := s.tbAllocPage t (b, 0) (physPc / t.pageSize * t.pageSize)
  let s := s.linkSecond t b physPage2
  let s := { s with jmpFirst := Function.update s.jmpFirst b (.first b) }
  (s.unchain (b, 0)).unchain (b, 1)

end TbDb

/-- The code that a block is made from: its virtual and physical address, its size, and the physical
page after the first. -/
structure Code where
  pc : ℕ
  csBase : ℕ
  flags : ℕ
  physPc : ℕ
  size : ℕ
  nextPage : ℕ

namespace TbDb

variable (t : Target) (s : TbDb)

/-- `tb_gen_code`, with `tb_alloc`: the block gets the next index. -/
def tbGenCode (c : Code) : TbDb :=
  let b := s.nbTbs
  let tb : Tb := ⟨c.pc, c.csBase, c.flags, c.size, (s.tbs b).pageAddr⟩
  let physPage2 :=
    if c.pc / t.pageSize ≠ (c.pc + c.size - 1) / t.pageSize then some c.nextPage else none
  TbDb.tbLinkPage t { s with
    tbs := Function.update s.tbs b tb, nbTbs := b + 1 } b c.physPc physPage2

/-- The test of `tb_find_slow`. -/
def isFor (c : Code) (b : ℕ) : Bool :=
  let tb := s.tbs b
  tb.pc == c.pc && tb.pageAddr 0 == some (c.physPc / t.pageSize * t.pageSize) &&
    tb.csBase == c.csBase && tb.flags == c.flags &&
    (tb.pageAddr 1 == none || tb.pageAddr 1 == some c.nextPage)

def cacheJump (cpu pc b : ℕ) : TbDb :=
  { s with
    jmpCache := Function.update s.jmpCache cpu
      (Function.update (s.jmpCache cpu) (tbJmpCacheHashFunc t pc) (some b)) }

/-- `tb_find_slow`: a block that is found moves to the head of its bucket, any other is
generated. -/
def tbFindSlow (cpu : ℕ) (c : Code) : Except Lost TbDb :=
  let h := tbPhysHashFunc c.physPc
  match Chain.remove s.physHash s.physHashNext h (s.isFor t c) s.fuel with
  | .ok (b, heads, next) =>
    let (heads', next') := Chain.push heads next h b
    .ok (TbDb.cacheJump t { s with physHash := heads', physHashNext := next' } cpu c.pc b)
  -- the place where the walk ended is null, or is the head that the new block has just become
  | .error .null => .ok ((s.tbGenCode t c).cacheJump t cpu c.pc s.nbTbs)
  | .error .fuel => .error .fuel

/-- `tb_add_jump`. -/
def tbAddJump (e : Part) (tbNext : ℕ) : TbDb :=
  match s.jmpNext e with
  | some _ => s
  | none =>
    { s with
      jump := Function.update s.jump e (some tbNext)
      jmpNext := Function.update s.jmpNext e (some (s.jmpFirst tbNext))
      jmpFirst := Function.update s.jmpFirst tbNext (.next e) }

/-- `tb_flush`. -/
def tbFlush : TbDb :=
  { s with
    nbTbs := 0
    physHash := fun _ => none
    firstTb := fun _ => none
    jmpCache := fun _ _ => none }

/-- The database before code is generated. -/
def init : TbDb where
  tbs := fun _ => ⟨0, 0, 0, 0, fun _ => none⟩
  nbTbs := 0
  physHash := fun _ => none
  physHashNext := fun _ => none
  firstTb := fun _ => none
  pageNext := fun _ => none
  jmpFirst := .first
  jmpNext := fun _ => none
  jump := fun _ => none
  jmpCache := fun _ _ => none

end TbDb

/-- The operations on the database. -/
inductive TbOp where
  | genCode (c : Code)
  | findSlow (cpu : ℕ) (c : Code)
  | addJump (e : Part) (tbNext : ℕ)
  | physInvalidate (b : ℕ)
  | invalidateRange (start stop : ℕ)
  | flush

def TbOp.run (t : Target) (s : TbDb) : TbOp → Except Lost TbDb
  | .genCode c => .ok (s.tbGenCode t c)
  | .findSlow cpu c => s.tbFindSlow t cpu c
  | .addJump e b => .ok (s.tbAddJump e b)
  | .physInvalidate b => s.tbPhysInvalidate t b none
  | .invalidateRange start stop => s.tbInvalidatePhysPageRange t start stop
  | .flush => .ok s.tbFlush

end Qemu.Exec
