import TextOrigin.Pool.Check

/-!
Rebuilding records from pools. A pool is checked as a whole before the first record is built. Then
each entry becomes one record on a node of its own, and entries that are referred to more than once
share their node.
-/

namespace TextOrigin.Pool

def recordOf (built : Array Record) (node : NodeId) (entry : Entry) : Except EntryFault Record :=
  match entry.link? with
  | none => .error (.unknownKind entry.kind)
  | some link => do
    let resolved ← link.mapM fun target =>
      match built[target.toNat]? with
      | some record => pure record
      | none => throw (.reference (.notBefore target))
    return Record.mk node entry.range resolved

def buildFrom (built : Array Record) (supply : NodeSupply) :
    List Entry → Except PoolFault (Array Record × NodeSupply)
  | [] => .ok (built, supply)
  | entry :: rest =>
    let (node, supply) := supply.fresh
    match recordOf built node entry with
    | .error fault => .error ⟨built.size, fault⟩
    | .ok record => buildFrom (built.push record) supply rest

/-- One record for each entry, in order, or the first rule that the pool breaks. -/
def decode (pool : Pool) (files? : Option Registry) (supply : NodeSupply) :
    Except PoolFault (Array Record × NodeSupply) :=
  match pool.fault? files? with
  | some fault => .error fault
  | none => buildFrom #[] supply pool.toList

end TextOrigin.Pool
