/-
  Fileutils/Cache.lean --- the content-addressed context cache
  (pkg/fileutils/tarxfer.go): digests, the completion check, writing and verifying
  the downloaded archive, and publishing it.

  `crypto/sha256` and `archive/tar` are outside the repository and enter as
  parameters (`Extern`).
-/
import BuilderShim.Fileutils.Unpack

set_option autoImplicit false

namespace BuilderShim.Fileutils

open BuilderShim.Filepath
open BuilderShim.Foundation
open BuilderShim.Posix

/-- The library functions the cache rests on. -/
structure Extern where
  sha256 : Bytes → Bytes
  sha256_length : ∀ data, (sha256 data).length = 32
  untar : Bytes → Archive

/-- Zeros may stand for a hash. -/
theorem zeroHash_length (_data : Bytes) : (List.replicate 32 (0 : UInt8)).length = 32 :=
  List.length_replicate

/-! ## Digests -/

/-- The value of a hexadecimal digit, either case (`encoding/hex`). -/
def hexValue (b : UInt8) : Option UInt8 :=
  if 48 ≤ b ∧ b ≤ 57 then some (b - 48)
  else if 97 ≤ b ∧ b ≤ 102 then some (b - 87)
  else if 65 ≤ b ∧ b ≤ 70 then some (b - 55)
  else none

/-- `hex.DecodeString`; an odd length or another byte is an error. -/
def hexDecode : Bytes → Option Bytes
  | [] => some []
  | [_] => none
  | hi :: lo :: rest =>
      match hexValue hi, hexValue lo, hexDecode rest with
      | some h, some l, some decoded => some ((h * 16 + l) :: decoded)
      | _, _, _ => none

def hexDigit (v : UInt8) : UInt8 := if v < 10 then v + 48 else v + 87

/-- `hex.EncodeToString`. -/
def hexEncode (data : Bytes) : Bytes :=
  data.flatMap fun b => [hexDigit (b / 16), hexDigit (b % 16)]

/-- `strings.ToLower`, as far as it matters: a string with a byte outside ASCII is
refused by the decoding whatever it is lowered to. -/
def toLower (s : Bytes) : Bytes := s.map fun b => if 65 ≤ b ∧ b ≤ 90 then b + 32 else b

def validateContextDigest (checksum : Bytes) : Except Err Unit :=
  if checksum.length ≠ 64 ∨ toLower checksum ≠ checksum then .error .invalidContextDigest
  else
    match hexDecode checksum with
    | none => .error .invalidContextDigest
    | some decoded => if decoded.length ≠ 32 then .error .invalidContextDigest else .ok ()

/-! ## The completion check -/

def checkCache (cachePath : Bytes) : Sys (Except Err Bool) := do
  match ← Sys.lstat cachePath with
  | .error .noent => return .ok false
  | .error e => return .error (.sys e)
  | .ok fi =>
      if fi.type ≠ .dir then
        return .error (.text (lit "cache path is not a directory: " ++ cachePath))
      else
        let markerPath := join cachePath cacheCompletionMarker
        match ← Sys.lstat markerPath with
        | .error .noent => return .ok false
        | .error e => return .error (.sys e)
        | .ok markerInfo =>
            if markerInfo.type ≠ .regular then
              return .error
                (.text (lit "cache completion marker is not a regular file: " ++ markerPath))
            else
              match ← Sys.readFile markerPath with
              | .error e => return .error (.sys e)
              | .ok marker => return .ok (decide (marker = cacheCompletionValue))

def cachedContextPresent (cacheBase checksum : Bytes) : Sys (Except Err Bool) :=
  match validateContextDigest checksum with
  | .error e => pure (.error e)
  | .ok () => checkCache (join cacheBase checksum)

/-! ## The archive file -/

def writeTar (base data : Bytes) : Sys (Except Err Bytes) := do
  match ← Sys.createTemp base (lit ".context-") (lit ".tar") with
  | .error e => return .error (.sys e)
  | .ok (path, fd) =>
      match ← Sys.write fd data with
      | .error e =>
          let _ ← Sys.close fd
          let _ ← Sys.remove path
          return .error (.sys e)
      | .ok () =>
          match ← Sys.close fd with
          | .error e =>
              let _ ← Sys.remove path
              return .error (.sys e)
          | .ok () => return .ok path

def verifyTarHash (x : Extern) (path checksum : Bytes) : Sys (Except Err Unit) := do
  match ← Sys.readFile path with
  | .error e => return .error (.sys e)
  | .ok data =>
      let actual := hexEncode (x.sha256 data)
      if actual ≠ checksum then
        return .error (.text
          (lit "tar checksum mismatch: expected " ++ checksum ++ lit ", got " ++ actual))
      else return .ok ()

/-! ## Publishing -/

/-- `publishTar` once it has a temporary directory, up to the deferred cleanup. -/
def publishTemp (x : Extern) (tarFile cacheDir tempDir : Bytes) : Sys (Except Err Unit) := do
  match ← unpackTar x.untar tarFile tempDir with
  | .error e => return .error e
  | .ok () =>
      match ← Os.writeFile (join tempDir cacheCompletionMarker) cacheCompletionValue 0o600 with
      | .error e => return .error (.sys e)
      | .ok () => return (← Sys.renameDir tempDir cacheDir).mapError .sys

/-- `publishTar` while it holds the lock. -/
def publishLocked (x : Extern) (tarFile cacheDir cacheBase : Bytes) : Sys (Except Err Unit) := do
  match ← checkCache cacheDir with
  | .error e => return .error e
  | .ok true => return .ok ()
  | .ok false =>
      match ← Os.removeAll cacheDir with
      | .error e => return .error (.sys e)
      | .ok () =>
          match ← Sys.mkdirTemp cacheBase (lit ".context-") [] with
          | .error e => return .error (.sys e)
          | .ok tempDir =>
              match ← publishTemp x tarFile cacheDir tempDir with
              | .ok () => return .ok ()
              | .error e =>
                  let _ ← Os.removeAll tempDir
                  return .error e

def lockSuffix : Bytes := lit ".lock"

def publishTar (x : Extern) (tarFile cacheDir cacheBase : Bytes) : Sys (Except Err Unit) := do
  let lockPath := cacheDir ++ lockSuffix
  let locked : Sys (Except Err Unit) := do
    match ← Sys.tryLock lockPath 0o600 with
    | .error e => return .error (.sys e)
    | .ok lock =>
        let r ← publishLocked x tarFile cacheDir cacheBase
        Sys.unlock lock
        return r
  match ← Sys.lstat lockPath with
  | .ok info =>
      if info.type = .symlink then
        return .error (.text (lit "cache lock path is a symlink: " ++ lockPath))
      else locked
  | .error .noent => locked
  | .error e => return .error (.sys e)

/-- What `publishTar` does once the path of the lock has been looked at. -/
def publishUnderLock (x : Extern) (tarFile cacheDir cacheBase lockPath : Bytes) :
    Sys (Except Err Unit) :=
  (Sys.tryLock lockPath 0o600).bind fun y =>
    match y with
    | .error e => Prog.ret (.error (.sys e))
    | .ok lock =>
        (publishLocked x tarFile cacheDir cacheBase).bind fun r =>
          (Sys.unlock lock).bind fun _ => Prog.ret r

end BuilderShim.Fileutils
