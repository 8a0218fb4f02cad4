import Dulge.AlpmList
import Dulge.Lib.Cyclic

/-! The package hash of `pkghash.c`: open addressing with linear probing over
list nodes, together with the list those nodes form. The loops of the source have
no bound of their own; here each runs for one turn of the ring at most and gives
`none` when it would go on, so `some` is the statement that the loop stops. The
load factors are the rationals 29/50 and 17/25. -/
namespace Dulge
open Cyclic

structure Node where
  addr : Nat
  data : Pkg
  deriving DecidableEq

/-- `alpm_pkghash_t`. Only the slots below `buckets` are part of the array. -/
structure Pkghash where
  hashTable : Nat → Option Node
  list : List Node
  buckets : Nat
  entries : Nat
  limit : Nat

def primeList : List Nat :=
  [11, 13, 17, 19, 23, 29, 31, 37, 41, 43, 47, 53, 59, 61, 67, 71, 73, 79, 83, 89, 97, 103,
   109, 113, 127, 137, 139, 149, 157, 167, 179, 193,
   199, 211, 227, 241, 257, 277, 293, 313, 337, 359,
   383, 409, 439, 467, 503, 541, 577, 619, 661, 709,
   761, 823, 887, 953, 1031, 1109, 1193, 1289, 1381,
   1493, 1613, 1741, 1879, 2029, 2179, 2357, 2549,
   2753, 2971, 3209, 3469, 3739, 4027, 4349, 4703,
   5087, 5503, 5953, 6427, 6949, 7517, 8123, 8783,
   9497, 10273, 11113, 12011, 12983, 14033, 15173,
   16411, 17749, 19183, 20753, 22447, 24281, 26267,
   28411, 30727, 33223, 35933, 38873, 42043, 45481,
   49201, 53201, 57557, 62233, 67307, 72817, 78779,
   85229, 92203, 99733, 107897, 116731, 126271, 136607,
   147793, 159871, 172933, 187091, 202409, 218971, 236897,
   256279, 277261, 299951, 324503, 351061, 379787, 410857,
   444487, 480881, 520241, 562841, 608903, 658753, 712697,
   771049, 834181, 902483, 976369]

def stride : Nat := 1

/-- `_alpm_pkghash_create`; `none` is the `ERANGE` failure. -/
def pkghashCreate (size : Nat) : Option Pkghash :=
  let size := size * 50 / 29 + 1
  let buckets := (primeList.find? (· > size)).getD 0
  if buckets < size then none
  else some { hashTable := fun _ => none, list := [], buckets, entries := 0,
              limit := buckets * 17 / 25 }

def getHashPosition (nameHash : Nat) (hash : Pkghash) : Option Nat :=
  firstFree hash.buckets hash.hashTable (nameHash % hash.buckets)

def rehashSize (buckets : Nat) : Nat :=
  if buckets < 500 then buckets * 2
  else if buckets < 2000 then buckets * 3 / 2
  else if buckets < 5000 then buckets * 4 / 3
  else buckets + 1

def Pkghash.store (hash : Pkghash) (position : Nat) (node : Option Node) : Pkghash :=
  { hash with hashTable := Function.update hash.hashTable position node }

/-- The rebinning loop of `rehash` over the old slots still to visit. -/
def rebin (oldhash : Pkghash) : List Nat → Pkghash → Option Pkghash
  | [], newhash => some newhash
  | i :: rest, newhash =>
    match oldhash.hashTable i with
    | none => rebin oldhash rest newhash
    | some node => do
        let position ← getHashPosition node.data.nameHash newhash
        rebin oldhash rest (newhash.store position (some node))

def rehash (oldhash : Pkghash) : Option Pkghash := do
  let newhash ← pkghashCreate (rehashSize oldhash.buckets)
  let newhash ← rebin oldhash (List.range oldhash.buckets) newhash
  some { newhash with list := oldhash.list, entries := oldhash.entries }

def makeRoom (hash : Pkghash) : Option Pkghash :=
  if hash.entries ≥ hash.limit then rehash hash else some hash

/-- `pkghash_add_pkg`, with the address that `malloc` returns for the new node. -/
def pkghashAddPkg (hash : Pkghash) (addr : Nat) (pkg : Pkg) (sorted : Bool) : Option Pkghash := do
  let hash ← makeRoom hash
  let position ← getHashPosition pkg.nameHash hash
  let ptr : Node := ⟨addr, pkg⟩
  let list := if sorted then listMmerge (fun a b => pkgCmp a.data b.data) hash.list [ptr]
    else hash.list ++ [ptr]
  some { hash.store position (some ptr) with list, entries := hash.entries + 1 }

def pkghashAdd (hash : Pkghash) (addr : Nat) (pkg : Pkg) : Option Pkghash :=
  pkghashAddPkg hash addr pkg false

def pkghashAddSorted (hash : Pkghash) (addr : Nat) (pkg : Pkg) : Option Pkghash :=
  pkghashAddPkg hash addr pkg true

/-- `move_one_entry`: the walk backwards from `stop` to the hole at `start`. A
free slot on the way would be a null dereference. -/
def moveOneEntry (hash : Pkghash) (start : Nat) : Nat → Nat → Option (Pkghash × Nat)
  | 0, _ => none
  | fuel + 1, stop =>
    if stop = start then some (hash, stop)
    else
      match hash.hashTable stop with
      | none => none
      | some i => do
          let newPosition ← getHashPosition i.data.nameHash hash
          if newPosition = start then some ((hash.store start (some i)).store stop none, stop)
          else moveOneEntry hash start fuel ((hash.buckets + stop - stride) % hash.buckets)

/-- The loop of `_alpm_pkghash_remove` that plugs one hole after the other. -/
def plugHoles (stop : Nat) : Nat → Pkghash → Nat → Option Pkghash
  | 0, _, _ => none
  | fuel + 1, hash, position => do
      let (hash', prev) ← moveOneEntry hash position hash.buckets stop
      if prev ≠ position then plugHoles stop fuel hash' prev else some hash'

def probeStops (hash : Pkghash) (nameHash : Nat) (name : CStr) (i : Nat) : Bool :=
  match hash.hashTable i with
  | none => true
  | some lp => lp.data.nameHash = nameHash ∧ strcmp lp.data.name name = 0

def probe (hash : Pkghash) (nameHash : Nat) (name : CStr) : Option Nat :=
  scan hash.buckets (probeStops hash nameHash name) hash.buckets (nameHash % hash.buckets)

def listRemoveItem (haystack : List Node) (item : Node) : List Node :=
  haystack.filter fun node => node.addr ≠ item.addr

def Pkghash.takeOut (hash : Pkghash) (position : Nat) (node : Node) : Pkghash :=
  { hash with
    hashTable := Function.update hash.hashTable position none
    list := listRemoveItem hash.list node
    entries := hash.entries - 1 }

/-- `_alpm_pkghash_remove`, with the removed package. -/
def pkghashRemove (hash : Pkghash) (pkg : Pkg) : Option (Pkghash × Option Pkg) := do
  let position ← probe hash pkg.nameHash pkg.name
  match hash.hashTable position with
  | none => some (hash, none)
  | some i =>
    let hash' := hash.takeOut position i
    let next ← scan hash.buckets (fun s => (hash'.hashTable s).isNone || s = position)
      hash.buckets (walk hash.buckets position stride)
    let stop := (hash.buckets + next - stride) % hash.buckets
    let plugged ← plugHoles stop hash.buckets hash' position
    some (plugged, some i.data)

def pkghashFind (hash : Pkghash) (name : CStr) : Option (Option Pkg) := do
  let position ← probe hash (hashSdbm name) name
  some ((hash.hashTable position).map Node.data)

end Dulge
