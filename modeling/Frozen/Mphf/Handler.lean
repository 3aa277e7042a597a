/-
# `Frozen.Mphf.Handler` — `mphf.c`: configuring the index and answering requests

The backend around the algorithm.  It adds one bit to the index, `broken`: an
insert or update that answers `-EBADF` may leave the g-values half rewritten, and
from then on every request but a rebuild is answered `-EBADF` too.

A request is seen through the three items the handler looks up: the action, the
input key and the output cell, each of which may be missing.
-/
import Frozen.Mphf.Chm

namespace Frozen.Mphf

/-- The configuration hash of a `chm_imp` index; a missing item keeps its default. -/
structure ChmConfig where
  nelementsMin : Option UInt64
  nelementsStep : Option UInt64
  nelementsMul : Option UInt64
  valueBits : Option UInt64
  readonly : Option UInt64

/-- `chm_imp_configure` on freshly zeroed data; `stores` are the backends it acquires. -/
def chmImpConfigure (cfg : ChmConfig) (stores : Be → Option (List UInt8)) :
    Except Int ChmImp :=
  if stores .g = none then throw (errorCode EMODULE 238)
  else
    let biValue := (cfg.valueBits.getD VALUE_BITS_DEFAULT).toNat
    pure {
      writeable := (stores .v).isSome && (stores .e).isSome && cfg.readonly.getD 0 == 0
      be := stores
      params := ⟨0, 0, 0, 0⟩
      nelementsMin := cfg.nelementsMin.getD CAPACITY_MIN_DEFAULT
      nelementsStep := cfg.nelementsStep.getD CAPACITY_STEP_DEFAULT
      nelementsMul := cfg.nelementsMul.getD CAPACITY_MUL_DEFAULT
      nvertex := 0, biValue, btValue := bitsToBytes biValue, btVertex :=
        0, biVertex := 0 }

structure MphfUserdata where
  mphf : ChmImp
  broken : Bool
deriving Inhabited

/-- `mphf_configure` with the `chm_imp` algorithm, not forked. -/
def mphfConfigure (cfg : ChmConfig) (stores : Be → Option (List UInt8)) (r1 r2 : UInt64) :
    Except Stop MphfUserdata :=
  match chmImpConfigure cfg stores with
  | .error code => .error (.ret code)
  | .ok data =>
      match chmImpLoad r1 r2 data with
      | .ok _ data => .ok { mphf := data, broken := false }
      | .error stop _ => .error stop

/-- `mphf_destroy`: what is left of the index is its stores. -/
def mphfDestroy (u : MphfUserdata) : Be → Option (List UInt8) :=
  match chmImpUnload u.mphf with
  | .ok _ data => data.be
  | .error _ data => data.be

structure MphfRequest where
  action : Option Action
  input : Option UInt64
  output : Option UInt64

/-- What a call leaves its caller: the code (`none`: it does not return) and the
output cell. -/
structure MphfReply where
  ret : Option Int
  output : Option UInt64
deriving DecidableEq

def Stop.code : Stop → Option Int
  | .ret code => some code
  | .loop => none

/-- The three branches of `mphf_handler` that change the index. -/
def mphfChange (m : ChmM Unit) (request : MphfRequest) (u : MphfUserdata) :
    MphfReply × MphfUserdata :=
  match m u.mphf with
  | .ok _ data => (⟨some 0, request.output⟩, { u with mphf := data })
  | .error stop data =>
      (⟨stop.code, request.output⟩,
        { mphf := data, broken := u.broken || stop == .ret (-EBADF) })

def mphfHandler (r1 r2 : UInt64) (request : MphfRequest) (u : MphfUserdata) :
    MphfReply × MphfUserdata :=
  match request.action with
  | none => (⟨some (-ENOSYS), request.output⟩, u)
  | some action =>
      if action = .rebuild then
        match mphfChmImpRebuild r1 r2 u.mphf with
        | .ok _ data =>
            (⟨some (-EBADF), request.output⟩, { mphf := data, broken := false })
        | .error stop data => (⟨stop.code, request.output⟩, { u with mphf := data })
      else if u.broken then (⟨some (-EBADF), request.output⟩, u)
      else
        match request.input, request.output with
        | some dInput, some dOutput =>
            match action with
            | .create => mphfChange (mphfChmImpInsert dInput dOutput) request u
            | .write => mphfChange (mphfChmImpUpdate dInput dOutput) request u
            | .read =>
                match mphfChmImpQuery dInput u.mphf with
                | .ok none data =>
                    (⟨some (-ENOENT), request.output⟩, { u with mphf := data })
                | .ok (some value) data => (⟨some 0, some value⟩, { u with mphf := data })
                | .error stop data =>
                    (⟨stop.code, request.output⟩, { u with mphf := data })
            | .delete => mphfChange (mphfChmImpDelete dInput) request u
            | _ => (⟨some 0, request.output⟩, u)
        | _, _ => (⟨some (-EINVAL), request.output⟩, u)

end Frozen.Mphf
