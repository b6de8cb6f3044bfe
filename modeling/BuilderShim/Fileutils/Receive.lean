/-
  Fileutils/Receive.lean --- `Receiver.Receive` (pkg/fileutils/tarxfer.go).

  Besides the file system the receiver talks to the goroutine that reads the
  stream, over three channels, to its context, and to the callback of the walk.
  These are operations here (`HostOp`); the channels themselves are in
  `TarStream`.

  `Receive` is cut in two: `fetchContext` is everything before the final walk,
  with the deferred removal of the archive file where it returns an error.
-/
import BuilderShim.Foundation.Lift
import BuilderShim.Fileutils.Cache

set_option autoImplicit false

namespace BuilderShim.Fileutils

open BuilderShim.Filepath
open BuilderShim.Foundation
open BuilderShim.Posix

/-- `tarStreamHeader` -/
structure TarStreamHeader where
  checksum : Bytes
  complete : Bool
  deriving DecidableEq, Repr

/-- What is handed to the callback of the walk: the relative path and the fields of
`FileInfo`. -/
structure WalkEntry where
  name : Bytes
  info : FileInfo
  linkName : Bytes
  deriving DecidableEq, Repr

/-- What a callback of `filepath.Walk` returns. -/
inductive Verdict where
  | proceed
  | skipDir
  | skipAll
  | fail (e : Err)
  deriving DecidableEq, Repr

/-- What a `select` over the error and the header channel has come to. -/
inductive HeaderEvent where
  | header (h : TarStreamHeader)
  | headerClosed
  | err (e : Option Err)
  | errClosed
  | done (e : Err)

/-- What a `select` over the error and the data channel has come to. -/
inductive DataEvent where
  | data (d : Bytes)
  | dataClosed
  | err (e : Option Err)
  | errClosed
  | done (e : Err)

inductive HostOp where
  /-- the `select` of `readTarStreamHeader`, with the channels that are not nil -/
  | selectHeader (header err : Bool)
  /-- the `select` of `readTarHeader` and `readTarBody` -/
  | selectData (err : Bool)
  /-- `<-errCh`; a closed channel gives nil -/
  | recvErr
  /-- a `select` over `errCh` with a default -/
  | pollErr (err : Bool)
  /-- the callback of the walk -/
  | visit (entry : WalkEntry)

def HostOp.Res : HostOp → Type
  | .selectHeader _ _ => HeaderEvent
  | .selectData _ => DataEvent
  | .recvErr => Option Err
  | .pollErr _ => Option Err
  | .visit _ => Verdict

def HostSig : Sig := ⟨HostOp, HostOp.Res⟩

/-- The operations of the receiver. -/
def RecvSig : Sig := FsSig.sum HostSig

abbrev Recv (α : Type) : Type 1 := Prog RecvSig α

namespace Recv

def sys {α : Type} (p : Sys α) : Recv α := p.inl HostSig

def selectHeader (header err : Bool) : Recv HeaderEvent :=
  Prog.perform (S := RecvSig) (.inr (.selectHeader header err))
def selectData (err : Bool) : Recv DataEvent := Prog.perform (S := RecvSig) (.inr (.selectData err))
def recvErr : Recv (Option Err) := Prog.perform (S := RecvSig) (.inr .recvErr)
def pollErr (err : Bool) : Recv (Option Err) := Prog.perform (S := RecvSig) (.inr (.pollErr err))
def visit (entry : WalkEntry) : Recv Verdict := Prog.perform (S := RecvSig) (.inr (.visit entry))

end Recv

/-! ## The stream -/

/-- The loop of `readTarStreamHeader`; the state says which channels are not nil. -/
def readTarStreamHeaderLoop (channels : Bool × Bool) : Recv (Except Err TarStreamHeader) :=
  Prog.loop channels fun (headerCh, errCh) => do
    if headerCh = false ∧ errCh = false then
      return .inr (.error (.text (lit "header channel closed, no hash received")))
    else
      match ← Recv.selectHeader headerCh errCh with
      | .header h => return .inr (.ok h)
      | .headerClosed => return .inl (false, errCh)
      | .errClosed => return .inl (headerCh, false)
      | .err none => return .inl (headerCh, errCh)
      | .err (some e) => return .inr (.error e)
      | .done e => return .inr (.error e)

def readTarStreamHeader : Recv (Except Err TarStreamHeader) := readTarStreamHeaderLoop (true, true)

/-- The first data; a nil error together with nil data counts as empty data. -/
def readTarHeader : Recv (Except Err Bytes) := do
  match ← Recv.selectData true with
  | .data d => return .ok d
  | .dataClosed =>
      match ← Recv.recvErr with
      | some e => return .error e
      | none => return .error (.text (lit "data channel closed"))
  | .err (some e) => return .error e
  | .err none => return .ok []
  | .errClosed => return .ok []
  | .done e => return .error e

/-- The loop of `readTarBody`; `fd` is the archive file, if there is one to extend, and
the state says whether the error channel is not nil. -/
def readTarBodyLoop (fd : Option Fd) : Recv (Except Err Unit) :=
  Prog.loop true fun errCh => do
    match ← Recv.selectData errCh with
    | .data d =>
        match fd with
        | none => return .inl errCh
        | some fd =>
            match ← Recv.sys (Sys.write fd d) with
            | .error e => return .inr (.error (.sys e))
            | .ok () => return .inl errCh
    | .dataClosed =>
        match ← Recv.pollErr errCh with
        | some e => return .inr (.error e)
        | none => return .inr (.ok ())
    | .errClosed => return .inl false
    | .err (some e) => return .inr (.error e)
    | .err none => return .inl errCh
    | .done e => return .inr (.error e)

def readTarBody (tarPath : Bytes) (cached : Bool) : Recv (Except Err Unit) :=
  if cached then readTarBodyLoop none
  else do
    match ← Recv.sys (Sys.openAppend tarPath) with
    | .error e => return .error (.sys e)
    | .ok fd =>
        let r ← readTarBodyLoop (some fd)
        let _ ← Recv.sys (Sys.close fd)
        return r

/-! ## The walk -/

def isSupportedCacheEntry (info : FileInfo) : Bool :=
  info.type = .regular || info.type = .dir || info.type = .symlink

def linkName : Content → Bytes
  | .symlink target => target
  | _ => []

/-- The callback of `walkCachedContext`. -/
def walkCachedEntry (cacheDir path : Bytes) (content : Content) : Recv Verdict :=
  match rel cacheDir path with
  | none => pure (.fail (.text (lit "Rel: can't make " ++ path ++ lit " relative to " ++ cacheDir)))
  | some name =>
      if name = dot ∨ name = cacheCompletionMarker then pure .proceed
      else if isSupportedCacheEntry content.info = false then pure .proceed
      else Recv.visit ⟨name, content.info, linkName content⟩

mutual

/-- `filepath.Walk` on a listed tree: a directory before its entries, and `SkipDir`
ends the directory it is returned in. -/
def walkTree (cacheDir : Bytes) : Tree → Bytes → Recv Verdict
  | .dir perm children, path => do
      match ← walkCachedEntry cacheDir path (.dir perm) with
      | .proceed => walkEntries cacheDir children path
      | v => return v
  | .file perm data, path => walkCachedEntry cacheDir path (.file perm data)
  | .symlink target, path => walkCachedEntry cacheDir path (.symlink target)

def walkEntries (cacheDir : Bytes) : List (Bytes × Tree) → Bytes → Recv Verdict
  | [], _ => pure .proceed
  | (name, t) :: children, path => do
      match ← walkTree cacheDir t (join path name) with
      | .proceed => walkEntries cacheDir children path
      | .skipDir =>
          if t.content.isDir then walkEntries cacheDir children path else return .skipDir
      | v => return v

end

/-- The entry is listed at once: it is complete and does not change any more. -/
def walkCachedContext (cacheDir : Bytes) : Recv (Option Err) := do
  match ← Recv.sys (Sys.snapshot cacheDir) with
  | .error e => return some (.sys e)
  | .ok t =>
      match ← walkTree cacheDir t cacheDir with
      | .fail e => return some e
      | _ => return none

/-! ## The receiver -/

/-- `Receive` from the verified header on, when the context is not in the cache: the
archive is downloaded, verified and published.  The file is removed if that fails. -/
def downloadContext (x : Extern) (cacheBase cacheDir checksum tarHeader : Bytes) :
    Recv (Except Err Bytes) := do
  match ← Recv.sys (writeTar cacheBase tarHeader) with
  | .error e => return .error e
  | .ok tarFile =>
      match ← readTarBody tarFile false with
      | .error e =>
          let _ ← Recv.sys (Sys.remove tarFile)
          return .error e
      | .ok () =>
          match ← Recv.sys (verifyTarHash x tarFile checksum) with
          | .error e =>
              let _ ← Recv.sys (Sys.remove tarFile)
              return .error e
          | .ok () =>
              match ← Recv.sys (publishTar x tarFile cacheDir cacheBase) with
              | .error e =>
                  let _ ← Recv.sys (Sys.remove tarFile)
                  return .error e
              | .ok () => return .ok tarFile

/-- `Receive` after the header and up to the walk: the digest, and the archive file
still to be removed. -/
def fetchWith (x : Extern) (cacheBase : Bytes) (header : TarStreamHeader) :
    Recv (Except Err (Bytes × Option Bytes)) := do
  let checksum := header.checksum
  match validateContextDigest checksum with
  | .error e => return .error e
  | .ok () =>
      match ← Recv.sys (Os.mkdirAll cacheBase 0o755) with
      | .error e => return .error (.sys e)
      | .ok () =>
          let cacheDir := join cacheBase checksum
          match ← Recv.sys (cachedContextPresent cacheBase checksum) with
          | .error e => return .error e
          | .ok cached =>
              if header.complete then
                if cached = false then
                  return .error (.text
                    (lit "context " ++ checksum ++ lit " marked complete but is not cached"))
                else return .ok (checksum, none)
              else
                match ← readTarHeader with
                | .error e => return .error e
                | .ok tarHeader =>
                    if cached then
                      match ← readTarBody [] true with
                      | .error e => return .error e
                      | .ok () => return .ok (checksum, none)
                    else
                      match ← downloadContext x cacheBase cacheDir checksum tarHeader with
                      | .error e => return .error e
                      | .ok tarFile => return .ok (checksum, some tarFile)

def fetchContext (x : Extern) (cacheBase : Bytes) : Recv (Except Err (Bytes × Option Bytes)) := do
  match ← readTarStreamHeader with
  | .error e => return .error e
  | .ok header => fetchWith x cacheBase header

/-- The end of `Receive`: the walk, and the deferred removal of the archive file. -/
def walkFetched (cacheBase : Bytes) :
    Except Err (Bytes × Option Bytes) → Recv (Except Err Bytes × Option Err)
  | .error e => return (.error e, some e)
  | .ok (checksum, tarFile) => do
      let walked ← walkCachedContext (join cacheBase checksum)
      match tarFile with
      | none => return (.ok checksum, walked)
      | some tarFile =>
          let _ ← Recv.sys (Sys.remove tarFile)
          return (.ok checksum, walked)

/-- `Receive`: the digest, and the error of the walk if it has one. -/
def receive (x : Extern) (cacheBase : Bytes) : Recv (Except Err Bytes × Option Err) := do
  walkFetched cacheBase (← fetchContext x cacheBase)

end BuilderShim.Fileutils
