import RoutineHttp.Text

/-! The enumerations of the library and their wire names. -/
namespace RoutineHttp

inductive Method where
  | none | get | post | put | patch | delete | head | options | connect | trace
  deriving DecidableEq, Repr

inductive Header where
  | none | host | userAgent | accept | acceptEncoding | acceptLanguage | contentType
  | contentLength | authorization | connection | referer | cookie | cacheControl | origin | date
  | server | setCookie | lastModified | location | contentEncoding | accessControlAllowOrigin
  | accessControlAllowMethods | transferEncoding
  deriving DecidableEq, Repr

inductive Version where
  | none | http10 | http11 | http2 | http3
  deriving DecidableEq, Repr

inductive Status where
  | none | continue | switchingProtocols | processing | earlyHints | ok | created | accepted
  | nonAuthoritativeInformation | noContent | resetContent | partialContent | multiStatus
  | alreadyReported | imUsed | multipleChoices | movedPermanently | found | seeOther
  | notModified | useProxy | temporaryRedirect | permanentRedirect | badRequest | unauthorized
  | paymentRequired | forbidden | notFound | methodNotAllowed | notAcceptable | proxyAuthRequired
  | requestTimeout | conflict | gone | lengthRequired | preconditionFailed | payloadTooLarge
  | uriTooLong | unsupportedMediaType | rangeNotSatisfiable | expectationFailed
  | misdirectedRequest | unprocessableEntity | locked | failedDependency | tooEarly
  | upgradeRequired | preconditionRequired | tooManyRequests | requestHeaderFieldsTooLarge
  | unavailableForLegalReasons | internalServerError | notImplemented | badGateway
  | serviceUnavailable | gatewayTimeout | httpVersionNotSupported | variantAlsoNegotiates
  | insufficientStorage | loopDetected | notExtended | networkAuthRequired
  deriving DecidableEq, Repr

def Header.name : Header → Str
  | .none => "none".toList
  | .host => "host".toList
  | .userAgent => "user-agent".toList
  | .accept => "accept".toList
  | .acceptEncoding => "accept-encoding".toList
  | .acceptLanguage => "accept-language".toList
  | .contentType => "content-type".toList
  | .contentLength => "content-length".toList
  | .authorization => "authorization".toList
  | .connection => "connection".toList
  | .referer => "referer".toList
  | .cookie => "cookie".toList
  | .cacheControl => "cache-control".toList
  | .origin => "origin".toList
  | .date => "date".toList
  | .server => "server".toList
  | .setCookie => "set-cookie".toList
  | .lastModified => "last-modified".toList
  | .location => "location".toList
  | .contentEncoding => "content-encoding".toList
  | .accessControlAllowOrigin => "access-control-allow-origin".toList
  | .accessControlAllowMethods => "access-control-allow-methods".toList
  | .transferEncoding => "transfer-encoding".toList

def versionFromString (string : Str) : Version :=
  if "HTTP/1.0".toList.isPrefixOf string then .http10
  else if "HTTP/1.1".toList.isPrefixOf string then .http11
  else if "HTTP/2".toList.isPrefixOf string then .http2
  else if "HTTP/3".toList.isPrefixOf string then .http3
  else .none

def methodFromString (string : Str) : Method :=
  if string = "GET".toList then .get
  else if string = "POST".toList then .post
  else if string = "PUT".toList then .put
  else if string = "DELETE".toList then .delete
  else if string = "PATCH".toList then .patch
  else if string = "HEAD".toList then .head
  else if string = "OPTIONS".toList then .options
  else if string = "CONNECT".toList then .connect
  else if string = "TRACE".toList then .trace
  else .none

def Method.name : Method → Str
  | .none => "NONE".toList
  | .get => "GET".toList
  | .post => "POST".toList
  | .put => "PUT".toList
  | .patch => "PATCH".toList
  | .delete => "DELETE".toList
  | .head => "HEAD".toList
  | .options => "OPTIONS".toList
  | .connect => "CONNECT".toList
  | .trace => "TRACE".toList

/-- The number and the reason text of a status, as the status line carries them. -/
def Status.line : Status → Str
  | .none => "0 None".toList
  | .continue => "100 Continue".toList
  | .switchingProtocols => "101 Switching_Protocols".toList
  | .processing => "102 Processing".toList
  | .earlyHints => "103 Early_Hints".toList
  | .ok => "200 Ok".toList
  | .created => "201 Created".toList
  | .accepted => "202 Accepted".toList
  | .nonAuthoritativeInformation => "203 Non_Authoritative_Information".toList
  | .noContent => "204 No_Content".toList
  | .resetContent => "205 Reset_Content".toList
  | .partialContent => "206 Partial_Content".toList
  | .multiStatus => "207 Multi_Status".toList
  | .alreadyReported => "208 Already_Reported".toList
  | .imUsed => "226 Im_Used".toList
  | .multipleChoices => "300 Multiple_Choices".toList
  | .movedPermanently => "301 Moved_Permanently".toList
  | .found => "302 Found".toList
  | .seeOther => "303 See_Other".toList
  | .notModified => "304 Not_Modified".toList
  | .useProxy => "305 Use_Proxy".toList
  | .temporaryRedirect => "307 Temporary_Redirect".toList
  | .permanentRedirect => "308 Permanent_Redirect".toList
  | .badRequest => "400 Bad_Request".toList
  | .unauthorized => "401 Unauthorized".toList
  | .paymentRequired => "402 Payment_Required".toList
  | .forbidden => "403 Forbidden".toList
  | .notFound => "404 Not_Found".toList
  | .methodNotAllowed => "405 Method_Not_Allowed".toList
  | .notAcceptable => "406 Not_Acceptable".toList
  | .proxyAuthRequired => "407 Proxy_Auth_Required".toList
  | .requestTimeout => "408 Request_Timeout".toList
  | .conflict => "409 Conflict".toList
  | .gone => "410 Gone".toList
  | .lengthRequired => "411 Length_Required".toList
  | .preconditionFailed => "412 Precondition_Failed".toList
  | .payloadTooLarge => "413 Payload_Too_Large".toList
  | .uriTooLong => "414 Uri_Too_Long".toList
  | .unsupportedMediaType => "415 Unsupported_Media_Type".toList
  | .rangeNotSatisfiable => "416 Range_Not_Satisfiable".toList
  | .expectationFailed => "417 Expectation_Failed".toList
  | .misdirectedRequest => "421 Misdirected_Request".toList
  | .unprocessableEntity => "422 Unprocessable_Entity".toList
  | .locked => "423 Locked".toList
  | .failedDependency => "424 Failed_Dependency".toList
  | .tooEarly => "425 Too_Early".toList
  | .upgradeRequired => "426 Upgrade_Required".toList
  | .preconditionRequired => "428 Precondition_Required".toList
  | .tooManyRequests => "429 Too_Many_Requests".toList
  | .requestHeaderFieldsTooLarge => "431 Request_Header_Fields_Too_Large".toList
  | .unavailableForLegalReasons => "451 Unavailable_For_Legal_Reasons".toList
  | .internalServerError => "500 Internal_Server_Error".toList
  | .notImplemented => "501 Not_Implemented".toList
  | .badGateway => "502 Bad_Gateway".toList
  | .serviceUnavailable => "503 Service_Unavailable".toList
  | .gatewayTimeout => "504 Gateway_Timeout".toList
  | .httpVersionNotSupported => "505 Http_Version_Not_Supported".toList
  | .variantAlsoNegotiates => "506 Variant_Also_Negotiates".toList
  | .insufficientStorage => "507 Insufficient_Storage".toList
  | .loopDetected => "508 Loop_Detected".toList
  | .notExtended => "510 Not_Extended".toList
  | .networkAuthRequired => "511 Network_Auth_Required".toList

end RoutineHttp
