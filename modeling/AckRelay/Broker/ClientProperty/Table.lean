import AckRelay.Broker.ClientProperty

namespace AckRelay.ClientProperty

def noZstd : String := "libzstd not available at build time"

def noCurl : String := "libcurl not available at build time"

def noCyrus : String := "cyrus-sasl/libsasl2 not available at build time"

def noOidc : String :=
  "OAuth/OIDC depends on libcurl and OpenSSL which were not available at build time"

def flags : List ClientProperty :=
  ["enable.auto.commit", "enable.auto.offset.store", "enable.partition.eof", "check.crcs",
    "allow.auto.create.topics", "enable.ssl.certificate.verification", "socket.keepalive.enable",
    "socket.nagle.disable", "log.queue", "log.thread.name", "enable.random.seed",
    "log.connection.close", "api.version.request", "topic.metadata.refresh.sparse",
    "enable.sparse.connections", "enable.sasl.oauthbearer.unsecure.jwt", "enable_sasl_queue",
    "enable.idempotence", "enable.gapless.guarantee", "delivery.report.only.error",
    "enable.metrics.push", "auto.commit.enable", "produce.offset.report"].map (⟨·, .flag, none⟩)

def numbers : List ClientProperty :=
  [("message.max.bytes", 1000, 1000000000), ("message.copy.max.bytes", 0, 1000000000),
    ("receive.message.max.bytes", 1000, 2147483647),
    ("max.in.flight.requests.per.connection", 1, 1000000),
    ("metadata.request.timeout.ms", 10, 900000),
    ("topic.metadata.refresh.interval.ms", -1, 3600000), ("metadata.max.age.ms", 1, 86400000),
    ("metadata.recovery.rebootstrap.trigger.ms", 0, 2147483647),
    ("topic.metadata.refresh.fast.interval.ms", 1, 60000),
    ("topic.metadata.refresh.fast.cnt", 0, 1000),
    ("topic.metadata.propagation.max.ms", 0, 3600000), ("socket.timeout.ms", 10, 300000),
    ("socket.blocking.max.ms", 1, 60000), ("socket.send.buffer.bytes", 0, 100000000),
    ("socket.receive.buffer.bytes", 0, 100000000), ("socket.max.fails", 0, 1000000),
    ("broker.address.ttl", 0, 86400000),
    ("socket.connection.setup.timeout.ms", 1000, 2147483647),
    ("connections.max.idle.ms", 0, 2147483647), ("reconnect.backoff.jitter.ms", 0, 3600000),
    ("reconnect.backoff.ms", 0, 3600000), ("reconnect.backoff.max.ms", 0, 3600000),
    ("statistics.interval.ms", 0, 86400000), ("enabled_events", 0, 2147483647),
    ("log_level", 0, 7), ("internal.termination.signal", 0, 128),
    ("api.version.request.timeout.ms", 1, 300000), ("api.version.fallback.ms", 0, 604800000),
    ("sasl.kerberos.min.time.before.relogin", 0, 86400000), ("session.timeout.ms", 1, 3600000),
    ("heartbeat.interval.ms", 1, 3600000), ("coordinator.query.interval.ms", 1, 3600000),
    ("max.poll.interval.ms", 1, 86400000), ("auto.commit.interval.ms", 0, 86400000),
    ("queued.min.messages", 1, 10000000), ("queued.max.messages.kbytes", 1, 2097151),
    ("fetch.wait.max.ms", 0, 300000), ("fetch.queue.backoff.ms", 0, 300000),
    ("fetch.message.max.bytes", 1, 1000000000), ("fetch.max.bytes", 0, 2147483135),
    ("fetch.min.bytes", 1, 100000000), ("fetch.error.backoff.ms", 0, 300000),
    ("transaction.timeout.ms", 1000, 2147483647),
    ("queue.buffering.max.messages", 0, 2147483647), ("queue.buffering.max.kbytes", 1, 2147483647),
    ("message.send.max.retries", 0, 2147483647), ("retry.backoff.ms", 1, 300000),
    ("retry.backoff.max.ms", 1, 300000), ("queue.buffering.backpressure.threshold", 1, 1000000),
    ("batch.num.messages", 1, 1000000), ("batch.size", 1, 2147483647),
    ("sticky.partitioning.linger.ms", 0, 900000), ("consume.callback.max.messages", 0, 1000000),
    ("request.timeout.ms", 1, 900000), ("message.timeout.ms", 0, 2147483647),
    ("compression.level", -1, 12), ("offset.store.sync.interval.ms", -1, 86400000),
    ("test.mock.num.brokers", 0, 10000), ("test.mock.broker.rtt", 0, 3600000)].map
      fun (name, least, greatest) => ⟨name, .number least greatest [], none⟩

def choices : List ClientProperty :=
  [("auto.offset.reset",
      ["smallest", "earliest", "beginning", "largest", "latest", "end", "error"]),
    ("security.protocol", ["plaintext", "ssl", "sasl_plaintext", "sasl_ssl"]),
    ("isolation.level", ["read_uncommitted", "read_committed"]),
    ("broker.address.family", ["any", "v4", "v6"]),
    ("offset.store.method", ["none", "file", "broker"]),
    ("queuing.strategy", ["fifo", "lifo"]), ("group.protocol", ["classic", "consumer"]),
    ("client.dns.lookup", ["use_all_dns_ips", "resolve_canonical_bootstrap_servers_only"]),
    ("metadata.recovery.strategy", ["none", "rebootstrap"]),
    ("ssl.endpoint.identification.algorithm", ["none", "https"])].map
      fun (name, names) => ⟨name, .choice (names.map (⟨·, none⟩)), none⟩

def texts : List ClientProperty :=
  ["client.id", "client.software.name", "client.software.version", "metadata.broker.list",
    "topic.blacklist", "ssl.cipher.suites", "ssl.curves.list", "ssl.sigalgs.list",
    "ssl.key.location", "ssl.key.password", "ssl.key.pem", "ssl.certificate.location",
    "ssl.certificate.pem", "ssl.ca.location", "ssl.ca.pem", "ssl.ca.certificate.stores",
    "https.ca.location", "https.ca.pem", "ssl.crl.location", "ssl.keystore.location",
    "ssl.keystore.password", "ssl.providers", "ssl.engine.location", "ssl.engine.id",
    "sasl.kerberos.service.name", "sasl.kerberos.principal", "sasl.kerberos.kinit.cmd",
    "sasl.kerberos.keytab", "sasl.username", "sasl.password", "sasl.oauthbearer.config",
    "plugin.library.paths", "group.id", "group.instance.id", "partition.assignment.strategy",
    "group.protocol.type", "group.remote.assignor", "client.rack", "transactional.id",
    "offset.store.path"].map (⟨·, .text .any, none⟩)

def callbacks : List ClientProperty :=
  ["error_cb", "throttle_cb", "stats_cb", "log_cb", "background_event_cb", "socket_cb",
    "connect_cb", "closesocket_cb", "open_cb", "resolve_cb", "opaque", "default_topic_conf",
    "ssl_engine_callback_data", "ssl.certificate.verify_cb", "oauthbearer_token_refresh_cb",
    "ut_handle_ProduceResponse", "consume_cb", "rebalance_cb", "offset_commit_cb", "dr_cb",
    "dr_msg_cb", "partitioner_cb", "msg_order_cmp"].map (⟨·, .callback, none⟩)

def hidden : List ClientProperty :=
  ["ssl_key", "ssl_certificate", "ssl_ca", "interceptors"].map (⟨·, .hidden, none⟩)

def unavailable : List ClientProperty :=
  ["sasl.oauthbearer.method", "sasl.oauthbearer.client.id", "sasl.oauthbearer.client.secret",
    "sasl.oauthbearer.scope", "sasl.oauthbearer.extensions",
    "sasl.oauthbearer.token.endpoint.url", "sasl.oauthbearer.grant.type",
    "sasl.oauthbearer.assertion.algorithm", "sasl.oauthbearer.assertion.private.key.file",
    "sasl.oauthbearer.assertion.private.key.passphrase",
    "sasl.oauthbearer.assertion.private.key.pem", "sasl.oauthbearer.assertion.file",
    "sasl.oauthbearer.assertion.claim.aud", "sasl.oauthbearer.assertion.claim.exp.seconds",
    "sasl.oauthbearer.assertion.claim.iss", "sasl.oauthbearer.assertion.claim.jti.include",
    "sasl.oauthbearer.assertion.claim.nbf.seconds", "sasl.oauthbearer.assertion.claim.sub",
    "sasl.oauthbearer.assertion.jwt.template.file",
    "sasl.oauthbearer.metadata.authentication.type"].map (⟨·, .text .any, some noOidc⟩)

def debugContexts : List Choice :=
  ["generic", "broker", "topic", "metadata", "feature", "queue", "msg", "protocol", "cgrp",
    "security", "fetch", "interceptor", "plugin", "consumer", "admin", "eos", "mock", "assignor",
    "conf", "telemetry", "all"].map (⟨·, none⟩)

def features : List Choice :=
  [⟨"gzip", none⟩, ⟨"snappy", none⟩, ⟨"ssl", none⟩, ⟨"sasl", none⟩, ⟨"regex", none⟩,
    ⟨"lz4", none⟩, ⟨"sasl_gssapi", some noCyrus⟩, ⟨"sasl_plain", none⟩, ⟨"sasl_scram", none⟩,
    ⟨"plugins", none⟩, ⟨"zstd", some noZstd⟩, ⟨"sasl_oauthbearer", none⟩,
    ⟨"http", some noCurl⟩, ⟨"oidc", some noOidc⟩]

def codecs : List Choice :=
  [⟨"none", none⟩, ⟨"gzip", none⟩, ⟨"snappy", none⟩, ⟨"lz4", none⟩, ⟨"zstd", some noZstd⟩]

def partitioners : List String :=
  ["random", "consistent", "consistent_random", "murmur2", "murmur2_random", "fnv1a",
    "fnv1a_random"]

def singular : List ClientProperty :=
  [⟨"builtin.features", .selection features, none⟩, ⟨"debug", .selection debugContexts, none⟩,
    ⟨"compression.codec", .choice codecs, none⟩,
    ⟨"queue.buffering.max.ms", .decimal 0 900000, none⟩,
    ⟨"request.required.acks", .number (-1) 1000 [("all", -1)], none⟩,
    ⟨"broker.version.fallback", .text .version, none⟩,
    ⟨"sasl.mechanisms", .text .single, none⟩,
    ⟨"partitioner", .text (.among partitioners), none⟩]

def all : List ClientProperty :=
  flags ++ numbers ++ choices ++ texts ++ callbacks ++ hidden ++ unavailable ++ singular

def aliases : List (String × String) :=
  [("bootstrap.servers", "metadata.broker.list"),
    ("max.in.flight", "max.in.flight.requests.per.connection"),
    ("sasl.mechanism", "sasl.mechanisms"),
    ("sasl.oauthbearer.client.credentials.client.id", "sasl.oauthbearer.client.id"),
    ("sasl.oauthbearer.client.credentials.client.secret", "sasl.oauthbearer.client.secret"),
    ("max.partition.fetch.bytes", "fetch.message.max.bytes"),
    ("linger.ms", "queue.buffering.max.ms"), ("retries", "message.send.max.retries"),
    ("compression.type", "compression.codec"), ("acks", "request.required.acks"),
    ("delivery.timeout.ms", "message.timeout.ms")]

def resolve (name : String) : String := (aliases.lookup name).getD name

def find? (name : String) : Option ClientProperty :=
  all.find? fun p => p.name = resolve name

def refusal? (name value : String) : Option String :=
  match find? name with
  | none => some (Fault.unknown.message name)
  | some p => (p.fault? value).map (·.message p.name)

end AckRelay.ClientProperty
