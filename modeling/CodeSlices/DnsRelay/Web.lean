import CodeSlices.DnsRelay.Dns

/-!
# The web resolvers

`tools/dnsrelay/dnsrelay.py`: a page is fetched from one of two servers and the address is cut out
of it, after a number of characters or on a line with a number.
-/

namespace CodeSlices.DnsRelay

inductive DownloadError
  | downloadError

inductive WebRequestError
  | webRequestError

/-- What `urlfetch` gives for a server and a target. -/
abbrev Fetch := Str → Str → Except DownloadError Str

/-- What the two subclasses of `DNSWeb` set. -/
structure DNSWeb where
  server : Str
  target : Str → Str
  readMax : Nat := 1024
  parseAddress : Str → Str → Str

namespace DNSWeb

def doWebLookup (web : DNSWeb) (fetch : Fetch) (domain : Str) : Except WebRequestError Str :=
  match fetch web.server (web.target domain) with
  | .ok body => .ok (body.take web.readMax)
  | .error _ => .error .webRequestError

def lookup (web : DNSWeb) (fetch : Fetch) (domain : Str) : Except WebRequestError Str := do
  let address ←
    if 0 < domain.length then
      let data ← web.doWebLookup fetch domain
      .ok (web.parseAddress domain data)
    else .ok cantResolve
  .ok (if address.length = 0 ∨ address = domain then cantResolve else address)

end DNSWeb

/-! ### lookupserver.com -/

namespace DNSWebLookupserverOcom

def addOffset : Nat := 769

/-- The offset of the first `<`. -/
def findTag : Str → Nat → Option Nat
  | [], _ => none
  | c :: rest, off => if c = '<' then some off else findTag rest (off + 1)

def parseAddress (domain data : Str) : Str :=
  if data.length = 0 then cantResolve
  else
    let specialChars := domain.count '-'
    let start := data.drop (addOffset + domain.length - specialChars)
    match findTag start 0 with
    | some off => start.take off
    | none => []

def web : DNSWeb where
  server := "www.lookupserver.com".toList
  target := fun domain => "/?forward_dns=".toList ++ domain ++ "&submit=Lookup".toList
  parseAddress := parseAddress

end DNSWebLookupserverOcom

/-! ### bloke.com -/

/-- `StringIO(data).readlines()`: every line with the newline that ends it. -/
def readlines : Str → List Str
  | [] => []
  | c :: rest =>
      if c = '\n' then [c] :: readlines rest
      else
        match readlines rest with
        | [] => [[c]]
        | line :: lines => (c :: line) :: lines

def isSpace (c : Char) : Bool :=
  c == ' ' || c == '\t' || c == '\n' || c == '\r' || c == '\x0b' || c == '\x0c'

/-- `str.split()` -/
def splitWords (s : Str) : List Str := (s.splitOnP isSpace).filter fun word => !word.isEmpty

namespace DNSWebBlokeOcom

def addOffset : Nat := 15

def parseAddress (_domain data : Str) : Str :=
  if data.length = 0 then cantResolve
  else
    match (readlines data)[addOffset - 1]? with
    | none => cantResolve
    | some res =>
        if res.length = 0 then cantResolve
        else if res.head? = some '*' then cantResolve
        else
          match splitWords res with
          | _ :: address :: _ => address
          | _ => cantResolve

def web : DNSWeb where
  server := "www.bloke.com".toList
  target := fun domain => "/cgi-bin/nslookup?".toList ++ domain
  parseAddress := parseAddress

end DNSWebBlokeOcom

end CodeSlices.DnsRelay
