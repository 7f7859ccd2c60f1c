import Stencil.Document

/-!
# Programs kept by name

A template that has been read is kept under its name together with a digest of
its source, and is read again only when the digest differs. A template that
cannot be read changes nothing.
-/

namespace Stencil

open Handlebars (Program SyntaxError)

structure Cache.Entry where
  digest : UInt64
  program : Program

/-- The programs kept by name. -/
abbrev Cache := Dictionary String Cache.Entry

namespace Cache

/-- The program kept under a name, if it was read from a source with the same digest. -/
def hit? (digest : String → UInt64) (cache : Cache) (name source : String) : Option Program :=
  match cache.get? name with
  | some entry => if entry.digest = digest source then some entry.program else none
  | none => none

def parse (digest : String → UInt64) (cache : Cache) (name source : String) :
    Except SyntaxError Program × Cache :=
  match hit? digest cache name source with
  | some program => (.ok program, cache)
  | none =>
    match Program.parse source with
    | .ok program => (.ok program, cache.put name ⟨digest source, program⟩)
    | .error e => (.error e, cache)

def convert (digest : String → UInt64) (o : Options) (cache : Cache) (name source : String) :
    Except Document.Error Document × Cache :=
  let (parsed, cache) := parse digest cache name source
  (Document.ofParsed o parsed, cache)

/-- The text that is handed out for a named template and what is to be said about it, and the
cache afterwards. -/
def handOut (digest : String → UInt64) (o : Options) (cache : Cache) (name source : String) :
    Except Document.Error (String × List Diagnostic) × Cache :=
  let (document, cache) := convert digest o cache name source
  (document.map fun d => (d.text o source, d.diagnostics), cache)

def forget (cache : Cache) (name : String) : Cache :=
  cache.erase name

inductive Request
  | convert (o : Options) (name source : String)
  | handOut (o : Options) (name source : String)
  | forget (name : String)
deriving Repr

inductive Answer
  | document (result : Except Document.Error Document)
  | text (result : Except Document.Error (String × List Diagnostic))
  | done

def answer (digest : String → UInt64) (cache : Cache) : Request → Answer × Cache
  | .convert o name source =>
    let (document, cache) := convert digest o cache name source
    (.document document, cache)
  | .handOut o name source =>
    let (text, cache) := handOut digest o cache name source
    (.text text, cache)
  | .forget name => (.done, cache.forget name)

/-- The answers to requests that come one after the other, and the cache at the end. -/
def run (digest : String → UInt64) : Cache → List Request → List Answer × Cache
  | cache, [] => ([], cache)
  | cache, request :: rest =>
    let (first, cache) := answer digest cache request
    let (more, cache) := run digest cache rest
    (first :: more, cache)

end Cache
end Stencil
