import TypedClient.Template.Basic

/-!
# Templates of the core

The modules that every generated service builds upon: the settings, the error, the
shapes of requests and results, the function that sends a request, and the hook
around it.
-/

namespace TypedClient.Template

/-- The settings of the client: where the server is and which version it has. -/
def settings : List Node :=
  [.text (lines
      ["export type OpenAPIConfig = \x7b",
        "    BASE: string;",
        "    VERSION: string;",
        "    WITH_CREDENTIALS: boolean;",
        "    TOKEN?: string | (() => Promise<string>);",
        "    HEADERS?: Record<string, string>;",
        "\x7d;",
        "",
        "export const OpenAPI: OpenAPIConfig = \x7b",
        "    BASE: '"]),
    .value ["server"],
    .text (lines ["',", "    VERSION: '"]),
    .value ["version"],
    .text (lines
      ["',",
        "    WITH_CREDENTIALS: false,",
        "    TOKEN: undefined,",
        "    HEADERS: undefined,",
        "\x7d;",
        ""])]

/-- The error that a failed request ends in. -/
def apiError : List Node :=
  [.text (lines
      ["import type \x7b ApiResult \x7d from './ApiResult';",
        "",
        "export class ApiError extends Error \x7b",
        "    public readonly url: string;",
        "    public readonly status: number;",
        "    public readonly statusText: string;",
        "    public readonly body: any;",
        "",
        "    constructor(response: ApiResult, message: string) \x7b",
        "        super(message);",
        "",
        "        this.name = 'ApiError';",
        "        this.url = response.url;",
        "        this.status = response.status;",
        "        this.statusText = response.statusText;",
        "        this.body = response.body;",
        "    \x7d",
        "\x7d",
        ""])]

/-- What is known about a request before it is sent. -/
def requestOptions : List Node :=
  [.text (lines
      ["export type ApiRequestOptions = \x7b",
        "    readonly method: 'GET' | 'PUT' | 'POST' | 'DELETE' | 'OPTIONS' | 'HEAD' | 'PATCH' | 'TRACE';",
        "    readonly path: string;",
        "    readonly cookies?: Record<string, any>;",
        "    readonly headers?: Record<string, any>;",
        "    readonly query?: Record<string, any>;",
        "    readonly body?: any;",
        "    readonly mediaType?: string;",
        "    readonly responseHeader?: string;",
        "    readonly errors?: Record<number | string, string>;"]),
    .when (.holds ["runtimeValidation"])
      [.text (lines ["", "    readonly validate?: (value: unknown) => boolean;"])]
      [],
    .text (lines ["", "\x7d;", ""])]

/-- What is known about a response. -/
def apiResult : List Node :=
  [.text (lines
      ["export type ApiResult = \x7b",
        "    readonly url: string;",
        "    readonly ok: boolean;",
        "    readonly status: number;",
        "    readonly statusText: string;",
        "    readonly body: any;",
        "\x7d;",
        ""])]

/-- The function that sends a request. -/
def request : List Node :=
  [.when (.equals ["httpClient"] "node")
      [.text (lines
          ["import fetch, \x7b Headers \x7d from 'node-fetch';",
            "import type \x7b RequestInit, Response \x7d from 'node-fetch';",
            ""])]
      [],
    .text (lines
      ["import \x7b ApiError \x7d from './ApiError';",
        "import type \x7b ApiRequestOptions \x7d from './ApiRequestOptions';",
        "import type \x7b ApiResult \x7d from './ApiResult';",
        "import type \x7b OpenAPIConfig \x7d from './OpenAPI';",
        "",
        "const isDefined = <T>(value: T | null | undefined): value is Exclude<T, null | undefined> =>",
        "    value !== undefined && value !== null;",
        "",
        "const getQueryString = (params: Record<string, any>): string => \x7b",
        "    const search = new URLSearchParams();",
        "    const append = (key: string, value: any): void => \x7b",
        "        if (Array.isArray(value)) \x7b",
        "            value.forEach(item => append(key, item));",
        "        \x7d else if (isDefined(value)) \x7b",
        "            search.append(key, String(value));",
        "        \x7d",
        "    \x7d;",
        "    Object.entries(params).forEach(([key, value]) => append(key, value));",
        "    const query = search.toString();",
        "    return query ? \x60?$\x7bquery\x7d\x60 : '';",
        "\x7d;",
        "",
        "const getUrl = (config: OpenAPIConfig, options: ApiRequestOptions): string =>",
        "    \x60$\x7bconfig.BASE\x7d$\x7boptions.path\x7d$\x7bgetQueryString(options.query ?? \x7b\x7d)\x7d\x60;",
        "",
        "const getHeaders = async (config: OpenAPIConfig, options: ApiRequestOptions): Promise<Headers> => \x7b",
        "    const headers = new Headers(\x7b",
        "        Accept: 'application/json',",
        "        ...config.HEADERS,",
        "    \x7d);",
        "    Object.entries(options.headers ?? \x7b\x7d)",
        "        .filter(([, value]) => isDefined(value))",
        "        .forEach(([key, value]) => headers.append(key, String(value)));",
        "",
        "    const token = typeof config.TOKEN === 'function' ? await config.TOKEN() : config.TOKEN;",
        "    if (token) \x7b",
        "        headers.append('Authorization', \x60Bearer $\x7btoken\x7d\x60);",
        "    \x7d",
        "",
        "    const cookies = Object.entries(options.cookies ?? \x7b\x7d)",
        "        .filter(([, value]) => isDefined(value))",
        "        .map(([key, value]) => \x60$\x7bkey\x7d=$\x7bencodeURIComponent(String(value))\x7d\x60);",
        "    if (cookies.length > 0) \x7b",
        "        headers.append('Cookie', cookies.join('; '));",
        "    \x7d",
        "",
        "    if (options.body !== undefined) \x7b",
        "        if (options.mediaType) \x7b",
        "            headers.append('Content-Type', options.mediaType);",
        "        \x7d else if (typeof options.body === 'string') \x7b",
        "            headers.append('Content-Type', 'text/plain');",
        "        \x7d else \x7b",
        "            headers.append('Content-Type', 'application/json');",
        "        \x7d",
        "    \x7d",
        "    return headers;",
        "\x7d;",
        "",
        "const getBody = (options: ApiRequestOptions): any => \x7b",
        "    if (options.body === undefined) \x7b",
        "        return undefined;",
        "    \x7d",
        "    const json = options.mediaType",
        "        ? options.mediaType.includes('json')",
        "        : typeof options.body !== 'string';",
        "    return json ? JSON.stringify(options.body) : options.body;",
        "\x7d;",
        "",
        "const getResponseBody = async (response: Response): Promise<any> => \x7b",
        "    if (response.status === 204) \x7b",
        "        return undefined;",
        "    \x7d",
        "    const contentType = response.headers.get('Content-Type') ?? '';",
        "    return contentType.toLowerCase().includes('json') ? response.json() : response.text();",
        "\x7d;",
        "",
        "const catchErrors = (options: ApiRequestOptions, result: ApiResult): void => \x7b",
        "    const message = options.errors?.[result.status];",
        "    if (message) \x7b",
        "        throw new ApiError(result, message);",
        "    \x7d",
        "    if (!result.ok) \x7b",
        "        throw new ApiError(result, 'Generic Error');",
        "    \x7d",
        "\x7d;",
        "",
        "export const request = async <T>(config: OpenAPIConfig, options: ApiRequestOptions): Promise<T> => \x7b",
        "    const url = getUrl(config, options);",
        "    const init: RequestInit = \x7b",
        "        method: options.method,",
        "        headers: await getHeaders(config, options),",
        "        body: getBody(options),",
        "    \x7d;"]),
    .when (.equals ["httpClient"] "fetch")
      [.text (lines
          ["",
            "    if (config.WITH_CREDENTIALS) \x7b",
            "        init.credentials = 'include';",
            "    \x7d"])]
      [],
    .when (.holds ["verboseHttpLog"])
      [.text (lines
          ["",
            "    console.debug(\x60[http] $\x7boptions.method\x7d $\x7burl\x7d\x60);"])]
      [],
    .text (lines
      ["",
        "",
        "    const response = await fetch(url, init);",
        "    const result: ApiResult = \x7b",
        "        url,",
        "        ok: response.ok,",
        "        status: response.status,",
        "        statusText: response.statusText,",
        "        body: options.responseHeader",
        "            ? response.headers.get(options.responseHeader) ?? undefined",
        "            : await getResponseBody(response),",
        "    \x7d;"]),
    .when (.holds ["verboseHttpLog"])
      [.text (lines
          ["",
            "    console.debug(\x60[http] $\x7bresult.status\x7d $\x7bresult.statusText\x7d $\x7burl\x7d\x60);"])]
      [],
    .text (lines
      ["",
        "",
        "    try \x7b",
        "        catchErrors(options, result);",
        "    \x7d catch (error) \x7b"]),
    .when (.holds ["throwOnRequestFailed"])
      [.text (lines ["", "        throw error;"])]
      [.text (lines ["", "        console.error(error);", "        return undefined as T;"])],
    .text (lines ["", "    \x7d"]),
    .when (.holds ["runtimeValidation"])
      [.text (lines
          ["",
            "",
            "    if (options.validate && !options.validate(result.body)) \x7b",
            "        throw new ApiError(result, 'Response validation failed');",
            "    \x7d"])]
      [],
    .text (lines ["", "", "    return result.body as T;", "\x7d;", ""])]

/-- The hook that sends a request and keeps its result. -/
def requestHook : List Node :=
  [.text (lines
      ["import \x7b useCallback, useEffect, useState \x7d from 'react';",
        "",
        "import type \x7b ApiRequestOptions \x7d from './ApiRequestOptions';",
        "import type \x7b OpenAPIConfig \x7d from './OpenAPI';",
        "import \x7b request \x7d from './request';",
        "",
        "export type RequestState<T> = \x7b",
        "    data?: T;",
        "    error?: unknown;",
        "    loading: boolean;",
        "    refetch: () => Promise<void>;",
        "\x7d;",
        "",
        "export const useRequest = <T>(",
        "    config: OpenAPIConfig,",
        "    options: ApiRequestOptions,",
        "    deps: ReadonlyArray<unknown>,",
        "): RequestState<T> => \x7b",
        "    const [data, setData] = useState<T>();",
        "    const [error, setError] = useState<unknown>();",
        "    const [loading, setLoading] = useState(true);",
        "",
        "    const refetch = useCallback(async () => \x7b",
        "        setLoading(true);",
        "        try \x7b",
        "            setData(await request<T>(config, options));",
        "            setError(undefined);",
        "        \x7d catch (e) \x7b",
        "            setError(e);",
        "        \x7d finally \x7b",
        "            setLoading(false);",
        "        \x7d",
        "        // eslint-disable-next-line react-hooks/exhaustive-deps",
        "    \x7d, deps);",
        "",
        "    useEffect(() => \x7b",
        "        void refetch();",
        "    \x7d, [refetch]);",
        "",
        "    return \x7b data, error, loading, refetch \x7d;",
        "\x7d;",
        ""])]

end TypedClient.Template
