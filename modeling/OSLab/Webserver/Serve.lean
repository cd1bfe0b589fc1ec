import OSLab.Webserver.Request

/-!
# Serving requests (`do_server_request` of `webserver/server_thread.c`)

A request is served in two parts, with the cache's two critical sections: the first looks the
file up and writes the response, the second inserts the file that was read. `serverStep` serves
one request after another; in `siteStep` the parts of requests that are served by different
workers follow each other in any order.

The client reads all that is written; the connection is closed after the second part.
-/

namespace OSLab.Webserver

open Prog

/-- The first section under `table_lock`: `cache_lookup(data, 1)`. -/
def lookupSection (maxCacheSize : ℤ) (fuel : ℕ) (fileName : Name) : Prog Wc (Option ℕ) :=
  if maxCacheSize > 0 then do
    let r ← (CacheOp.lookup fileName).run fuel
    return r.1
  else return none

/-- A hit: `request_set_data(rq, cached_entry->file)` and `request_sendfile`. -/
def sendCached (e : ℕ) : Prog Wc (List UInt8) := do
  let s ← getState
  let data ← load (s.fileOf e)
  load (requestSendfile data)

/-- No hit: `request_readfile`, whatever it returns, and `request_sendfile`. -/
def readAndSend (disk : Disk) (fileName : Name) : Option (List UInt8 × ReadResult) := do
  let rd ← requestReadfile disk fileName
  let sent ← requestSendfile rd.data
  return (rd.written ++ sent, rd)

/-- `do_server_request` up to the second section: what it writes, and what `request_readfile`
did, if it was called. -/
def serve (disk : Disk) (maxCacheSize : ℤ) (fuel : ℕ) (input : List UInt8) :
    Prog Wc (List UInt8 × Option ReadResult) := do
  let rq ← load (requestInit fuel input)
  match rq with
  | .refused written => return (written, none)
  | .asks fileName => do
    let cachedEntry ← lookupSection maxCacheSize fuel fileName
    match cachedEntry with
    | some e => do
      let written ← sendCached e
      return (written, none)
    | none => do
      let r ← load (readAndSend disk fileName)
      return (r.1, some r.2)

/-- The second section under `table_lock`, after a read; `file` is the address of the file data
and `element` what `malloc` returns for a new element. -/
def insertSection (maxCacheSize : ℤ) (fuel file element : ℕ) : Option ReadResult → Prog Wc Unit
  | none => return ()
  | some rd =>
    if maxCacheSize > 0 then do
      let _ ← (CacheOp.insert file rd.data element).run fuel
      return ()
    else return ()

/-- `do_server_request`: what it writes. -/
def doServerRequest (disk : Disk) (maxCacheSize : ℤ) (fuel file element : ℕ)
    (input : List UInt8) : Prog Wc (List UInt8) := do
  let r ← serve disk maxCacheSize fuel input
  insertSection maxCacheSize fuel file element r.2
  return r.1

/-- One request after another. A label is what a client sends and what is written to it. -/
def serverStep (disk : Disk) (maxCacheSize : ℤ) (s : Wc) (l : List UInt8 × List UInt8) (t : Wc) :
    Prop :=
  ∃ fuel file element, doServerRequest disk maxCacheSize fuel file element l.1 s = some (l.2, t)

/-! ### Several workers -/

/-- The cache, the file data that workers are about to insert, and a record of what
`request_readfile` was called for: the files on disk then, and the file data it made. -/
structure Site where
  cache : Wc
  inserting : List FileData
  record : List (Disk × FileData)

/-- A part of a request. -/
inductive SiteLab
  /-- The first part, with what the client sends, the files on disk and what is written. -/
  | serve (input : List UInt8) (disk : Disk) (written : List UInt8)
  /-- The second part, after a read. -/
  | insert (data : FileData)

/-- After the first part of a request. -/
def Site.served (w : Site) (disk : Disk) (maxCacheSize : ℤ) (rd : Option ReadResult) (t : Wc) :
    Site where
  cache := t
  inserting := w.inserting ++ (if maxCacheSize > 0 then (rd.map (·.data)).toList else [])
  record := w.record ++ (rd.map fun rd => (disk, rd.data)).toList

/-- The parts of requests, in any order. -/
def siteStep (maxCacheSize : ℤ) (w : Site) : SiteLab → Site → Prop
  | .serve input disk written, w' => ∃ fuel rd t,
      serve disk maxCacheSize fuel input w.cache = some ((written, rd), t) ∧
        w' = w.served disk maxCacheSize rd t
  | .insert data, w' => ∃ fuel file element l₁ l₂ r t, w.inserting = l₁ ++ data :: l₂ ∧
      (CacheOp.insert file data element).run fuel w.cache = some (r, t) ∧
        w' = ⟨t, l₁ ++ l₂, w.record⟩

/-- After `server_init`. -/
def siteInit (maxCacheSize : ℤ) : Site := ⟨cacheInit maxCacheSize, [], []⟩

end OSLab.Webserver
